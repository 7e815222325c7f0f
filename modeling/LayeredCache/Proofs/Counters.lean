import LayeredCache.Proofs.Counting

/-!
# Counters in the table

A number stepped by a word of ups and downs, where a refused step leaves the value as it is, walks
as the whole numbers do that are kept in the range of its kind. In the table a step is one turn,
at which the entry is looked up, checked and changed; so calls that step a counter side by side
lose nothing, unlike those that step it beside a cache.

Results:
* `Value.walk_int`: a number walks as the clamped whole numbers do.
* `Solo.counting_step`: what a call that answers has done to the counters.
* `Solo.counters_walk_exactly`: the walks, and the counters after any interleaving of calls.
-/

namespace LayeredCache

open TimedMap (delta Live)

/-! ## Walks -/

namespace IntKind

/-- The number of the kind that is nearest to `z`. -/
def clamp (k : IntKind) (z : Int) : Int := max k.low (min k.high z)

/-- The whole number `z` walked by steps of one, none of which leaves the range of the kind. -/
def walk (k : IntKind) (z : Int) (word : List Step) : Int :=
  word.foldl (fun z d => k.clamp (z + delta d)) z

theorem clamp_of_mem {k : IntKind} {z : Int} (hl : k.low ≤ z) (hh : z ≤ k.high) :
    k.clamp z = z := by
  rw [clamp, min_eq_right hh, max_eq_right hl]

/-- A step from the end of the range leads back to it. -/
theorem clamp_bound (k : IntKind) (d : Step) : k.clamp (d.bound k + delta d) = d.bound k := by
  have := k.low_le_high
  unfold clamp
  cases d <;> simp only [Step.bound, delta] <;> omega

end IntKind

namespace Value

variable {key : String} {d : Step} {n : BoundedInt}

/-- The value after a step; one that is refused leaves it as it is. -/
def stepped (key : String) (v : Value) (d : Step) : Value :=
  match v.step key d with
  | .ok v' => v'
  | .error _ => v

/-- The value after one step after the other. -/
def walk (key : String) (v : Value) (word : List Step) : Value := word.foldl (stepped key) v

theorem step_of_bound (h : n.val = d.bound n.kind) :
    (Value.int n).step key d = .error (d.overflow key) := step_eq_error_iff.mpr h

theorem step_of_ne_bound (key : String) (h : n.val ≠ d.bound n.kind) : ∃ n' : BoundedInt,
    (Value.int n).step key d = .ok (.int n') ∧ n'.kind = n.kind ∧ n'.val = n.val + delta d := by
  cases hn : d.next? n with
  | none =>
    have hs : (Value.int n).step key d = .error (d.overflow key) := by simp [step, hn]
    exact absurd (step_eq_error_iff.mp hs) h
  | some n' => exact ⟨n', by simp [step, hn], TimedMap.next?_val hn⟩

/-- Only whole numbers can be stepped. -/
theorem step_of_not_isInteger {v : Value} (h : v.isInteger = false) :
    v.step key d = .error (.notInteger key) := by
  cases v with
  | int n => exact absurd h (by simp [isInteger])
  | _ => rfl

theorem stepped_int (key : String) (n : BoundedInt) (d : Step) : ∃ n' : BoundedInt,
    stepped key (.int n) d = .int n' ∧ n'.kind = n.kind ∧
      n'.val = n.kind.clamp (n.val + delta d) := by
  by_cases hb : n.val = d.bound n.kind
  · refine ⟨n, by rw [stepped, step_of_bound hb], rfl, ?_⟩
    rw [hb, IntKind.clamp_bound]
  · obtain ⟨n', hs, hk, hv⟩ := step_of_ne_bound key hb
    refine ⟨n', by rw [stepped, hs], hk, ?_⟩
    rw [← hv, ← hk, IntKind.clamp_of_mem n'.inRange.1 n'.inRange.2]

/-- **A number walks as the clamped whole numbers do**, and keeps its kind. -/
theorem walk_int (key : String) (word : List Step) (n : BoundedInt) : ∃ n' : BoundedInt,
    walk key (.int n) word = .int n' ∧ n'.kind = n.kind ∧ n'.val = n.kind.walk n.val word := by
  induction word generalizing n with
  | nil => exact ⟨n, rfl, rfl, rfl⟩
  | cons d word ih =>
    obtain ⟨n₁, hs, hk, hv⟩ := stepped_int key n d
    obtain ⟨n', hw, hk', hv'⟩ := ih n₁
    rw [hk, hv] at hv'
    exact ⟨n', (congrArg (walk key · word) hs).trans hw, hk'.trans hk, hv'⟩

/-- Whatever is no number stays as it is. -/
theorem walk_of_not_isInteger {v : Value} (h : v.isInteger = false) (key : String) :
    ∀ word : List Step, walk key v word = v
  | [] => rfl
  | d :: word => by
    have hs : stepped key v d = v := by rw [stepped, step_of_not_isInteger h]
    exact (congrArg (walk key · word) hs).trans (walk_of_not_isInteger h key word)

end Value

/-! ## Calls side by side -/

namespace Solo

/-- What a step of a key answers at an instant, by the entry of the key. -/
def verdict (now : Nat) (d : Step) (key : String) : Option Entry → Answer Reply
  | none => .error (.keyAbsent key)
  | some e =>
    if Live now e then
      match e.value with
      | .int n => if n.val = d.bound n.kind then .error (d.overflow key) else .ok .nothing
      | _ => .error (.notInteger key)
    else .error (.keyExpired key)

/-- What a step does to the map, and what it answers. -/
inductive Stepped (now : Nat) (d : Step) (key : String) (m : TimedMap) :
    Answer Reply → TimedMap → Prop
  | moved {e : Entry} {n n' : BoundedInt} (he : m key = some e) (hv : e.value = .int n)
      (hk : n'.kind = n.kind) (hn : n'.val = n.val + delta d)
      (ha : verdict now d key (m key) = .ok .nothing) :
      Stepped now d key m (.ok .nothing)
        (Function.update m key (some { e with value := .int n' }))
  | refused {x : CacheError} (ha : verdict now d key (m key) = .error x) :
      Stepped now d key m (.error x) m

theorem stepped_of_does {now : Nat} {d : Step} {key : String} {t t' : Table} {r : Answer Reply}
    (h : Memory.Does now t (.step d key) r t') : Stepped now d key t.find? r t'.find? := by
  generalize hm : t.find? = m
  generalize hm' : t'.find? = m'
  have hg : TimedMap.Gives now m (.call (.step d key)) r m' := hm ▸ hm' ▸ TimedMap.gives_of_does h
  cases hg with
  | step he hl hv hk hn =>
    refine .moved he hv hk hn ?_
    have hb := TimedMap.val_ne_bound hk hn
    simp [verdict, he, hl, hv, hb]
  | atBound hl hb =>
    obtain ⟨e, he, hl, hv⟩ := TimedMap.look_eq_ok_iff.mp hl
    exact .refused (by simp [verdict, he, hl, hv, hb])
  | notInteger hl hi =>
    obtain ⟨e, he, hlive, rfl⟩ := TimedMap.look_eq_ok_iff.mp hl
    refine .refused ?_
    rw [he, verdict, if_pos hlive]
    split
    · rename_i n hv
      rw [hv] at hi
      exact absurd hi (by simp [Value.isInteger])
    · rfl
  | unread hl =>
    refine .refused ?_
    unfold TimedMap.look at hl
    cases he : m key with
    | none =>
      rw [he] at hl
      obtain rfl := Except.error.inj hl
      rfl
    | some e =>
      rw [he] at hl
      by_cases hlive : Live now e
      · simp [hlive] at hl
      · simp only [hlive, if_false, Except.error.injEq] at hl
        simp [verdict, hlive, hl]

theorem verdict_of_stepped {now : Nat} {d : Step} {key : String} {m m' : TimedMap}
    {r : Answer Reply} (h : Stepped now d key m r m') : r = verdict now d key (m key) := by
  cases h with
  | moved _ _ _ _ ha => exact ha.symm
  | refused ha => exact ha.symm

section Calls

variable {ι : Type} {asks : ι → Step × String}

/-- The task of a call that steps a key. -/
def stepping (asks : ι → Step × String) (i : ι) : Task := .call (.step (asks i).1 (asks i).2)

/-- The call has answered that it succeeded. -/
def succeeded (threads : ι → Option (Process Solo (Answer Reply))) (i : ι) : Bool :=
  match threads i with
  | some (.done r) => r.isOk
  | _ => false

theorem stepped_of_next? {i : ι} {q : Process Solo (Answer Reply)} {s s' : Solo}
    (h : (stepping asks i).run.next? s = some (q, s')) : ∃ r, q = .done r ∧
      Stepped s.instant (asks i).1 (asks i).2 s.engine.table.find? r s'.engine.table.find? := by
  obtain ⟨r, rfl, -, hd⟩ := memory.does_of_next? (c := .step (asks i).1 (asks i).2) h
  exact ⟨r, rfl, stepped_of_does hd⟩

variable [DecidableEq ι] {threads : ι → Option (Process Solo (Answer Reply))} {i : ι}
  {r : Answer Reply}

theorem succeeded_update_self :
    succeeded (Function.update threads i (some (.done r))) i = r.isOk := by
  rw [succeeded, Function.update_self]

theorem succeeded_update_of_ne {j : ι} (h : j ≠ i) :
    succeeded (Function.update threads i (some (.done r))) j = succeeded threads j := by
  rw [succeeded, Function.update_of_ne h, succeeded]

variable [Fintype ι]

/-- How often calls have moved a key in one direction. -/
def moves (asks : ι → Step × String) (threads : ι → Option (Process Solo (Answer Reply)))
    (key : String) (d : Step) : Nat := Backed.tally asks (succeeded threads) key d

/-- A call that was refused, or one on another key. -/
theorem moves_update {key : String} (hi : succeeded threads i = false)
    (h : (asks i).2 = key → r.isOk = false) (d : Step) :
    moves asks (Function.update threads i (some (.done r))) key d = moves asks threads key d := by
  refine Backed.tally_congr (fun j hj => ?_) d
  by_cases hji : j = i
  · subst hji
    rw [succeeded_update_self, hi, h hj]
  · exact succeeded_update_of_ne hji

/-- A call that succeeded. -/
theorem moves_update_ok {key : String} (hi : succeeded threads i = false) (hk : (asks i).2 = key)
    (hr : r.isOk = true) (d : Step) :
    moves asks (Function.update threads i (some (.done r))) key d =
      moves asks threads key d + if (asks i).1 = d then 1 else 0 :=
  Backed.tally_mark hk hi (succeeded_update_self.trans hr) (fun _ => succeeded_update_of_ne) d

/-- What every turn keeps of the table `t` that the calls began with. -/
structure Counting (asks : ι → Step × String) (t : Table) (p : Pool ι Solo (Answer Reply)) :
    Prop where
  /-- A call is still to be made, or it has answered. -/
  threads : ∀ i, p.threads i = some (stepping asks i).run ∨ ∃ r, p.threads i = some (.done r)
  /-- Where no call has succeeded, nothing has changed. -/
  same : ∀ key, (∀ i, (asks i).2 = key → succeeded p.threads i = false) →
    p.state.engine.table.find? key = t.find? key
  /-- A number has moved as often as calls have succeeded; the rest of its entry is as it was. -/
  counted : ∀ key e n, t.find? key = some e → e.value = .int n → ∃ n' : BoundedInt,
    p.state.engine.table.find? key = some { e with value := .int n' } ∧ n'.kind = n.kind ∧
      n'.val = n.val + moves asks p.threads key .up - moves asks p.threads key .down

variable {t : Table} {p p' : Pool ι Solo (Answer Reply)} {s : Solo}

/-- **A call that answers has moved its counter, if it succeeded, and nothing else.** -/
theorem counting_step (h : Counting asks t p) (hq : p.threads i = some (stepping asks i).run)
    (hs : Stepped p.state.instant (asks i).1 (asks i).2 p.state.engine.table.find? r
      s.engine.table.find?) :
    Counting asks t ⟨s, Function.update p.threads i (some (.done r))⟩ := by
  have hbefore : succeeded p.threads i = false := by
    rw [succeeded, hq]
    rfl
  constructor
  case threads =>
    intro j
    by_cases hj : j = i
    · subst hj
      exact .inr ⟨r, Function.update_self ..⟩
    · change Function.update p.threads i _ j = _ ∨ ∃ r, Function.update p.threads i _ j = _
      rw [Function.update_of_ne hj]
      exact h.threads j
  case same =>
    intro key hno
    have hsame := h.same key fun j hj => by
      by_cases hji : j = i
      · rw [hji, hbefore]
      · exact (succeeded_update_of_ne hji).symm.trans (hno j hj)
    rw [← hsame]
    change s.engine.table.find? key = _
    generalize s.engine.table.find? = m' at hs
    cases hs with
    | refused => rfl
    | moved =>
      refine Function.update_of_ne (fun hk => ?_) ..
      have hfailed := succeeded_update_self.symm.trans (hno i hk.symm)
      exact absurd hfailed (by simp [Except.isOk, Except.toBool])
  case counted =>
    intro key e n he hv
    obtain ⟨c, hc, hk, hn⟩ := h.counted key e n he hv
    change ∃ n' : BoundedInt, s.engine.table.find? key = _ ∧ n'.kind = n.kind ∧ _
    generalize s.engine.table.find? = m' at hs
    cases hs with
    | refused =>
      refine ⟨c, hc, hk, ?_⟩
      rw [moves_update hbefore fun _ => rfl, moves_update hbefore fun _ => rfl]
      exact hn
    | @moved e' m m' he' hv' hk' hm' =>
      by_cases hkey : (asks i).2 = key
      · subst hkey
        obtain rfl : e' = { e with value := .int c } := Option.some.inj (he'.symm.trans hc)
        obtain rfl : c = m := Value.int.inj hv'
        refine ⟨m', Function.update_self .., hk'.trans hk, ?_⟩
        rw [hm', hn, moves_update_ok hbefore rfl rfl, moves_update_ok hbefore rfl rfl]
        cases (asks i).1 <;> simp [delta] <;> omega
      · refine ⟨c, ?_, hk, ?_⟩
        · rw [Function.update_of_ne (Ne.symm hkey)]
          exact hc
        · rw [moves_update hbefore fun h => absurd h hkey,
            moves_update hbefore fun h => absurd h hkey]
          exact hn

omit [DecidableEq ι] in
theorem counting_pool (asks : ι → Step × String) (engine : Engine) (now : Nat) :
    Counting asks engine.table (pool (stepping asks) engine now) where
  threads i := .inl rfl
  same key _ := rfl
  counted key e n he hv := by
    have hnone (d : Step) : moves asks (pool (stepping asks) engine now).threads key d = 0 :=
      Finset.card_eq_zero.mpr (Finset.filter_eq_empty_iff.mpr fun i _ h => by cases h.2)
    refine ⟨n, ?_, rfl, by simp [hnone]⟩
    rw [← hv]
    exact he

/-- The step answers as the entry of its key says. -/
def Judged (asks : ι → Step × String) (x : Pool.Event ι Solo (Answer Reply)) : Prop :=
  x.answer = some (verdict x.before.instant (asks x.who).1 (asks x.who).2
    (x.before.engine.table.find? (asks x.who).2))

theorem counting_moved {u : Turn ι Nat} {x : Option (Pool.Event ι Solo (Answer Reply))}
    (h : Counting asks t p) (hm : Pool.Moved elapse p u x p') :
    Counting asks t p' ∧ ∀ e ∈ x, Judged asks e := by
  cases hm with
  | still => exact ⟨h, fun e he => by cases he⟩
  | outside nanos => exact ⟨⟨h.threads, h.same, h.counted⟩, fun e he => by cases he⟩
  | @step i q q' s hq hn =>
    rcases h.threads i with hrun | ⟨r, hdone⟩
    · obtain rfl := Option.some.inj (hq.symm.trans hrun)
      obtain ⟨r, rfl, hs⟩ := stepped_of_next? hn
      refine ⟨counting_step h hq hs, fun e he => ?_⟩
      obtain rfl := Option.some.inj he
      exact congrArg some (verdict_of_stepped hs)
    · obtain rfl := Option.some.inj (hq.symm.trans hdone)
      simp [Process.next?] at hn
  | @gone i w c q hq =>
    rcases h.threads i with hrun | ⟨r, hdone⟩
    · exact absurd (Option.some.inj (hq.symm.trans hrun) ▸ remains_run (stepping asks i)) not_wait
    · cases hq.symm.trans hdone

/-- A call answers at its turn. -/
theorem answered_of_counting (h : Counting asks t p) (i : ι) :
    ∃ r, (p.turn elapse (.go i)).threads i = some (.done r) := by
  rcases h.threads i with hrun | ⟨r, hdone⟩
  · have hn : (stepping asks i).run.next? p.state = some _ := rfl
    obtain ⟨r, hr, -⟩ := stepped_of_next? hn
    rw [Pool.turn_go elapse hrun hn, hr]
    exact ⟨r, Function.update_self ..⟩
  · have hstill : p.turn elapse (.go i) = p := by simp [Pool.turn, hdone, Process.next?]
    rw [hstill]
    exact ⟨r, hdone⟩

/-- **Numbers walk as the clamped whole numbers do, and stored ones under any interleaving.** Each
step of a word is refused just at the end of the range that it would leave, and a value that is no
number refuses them all. Calls that step a stored number, in any order of their turns and with any
time between them, move it by the ups less the downs that succeeded, whether it is live or expires
meanwhile; its instant and lifespan and whatever no call has stepped stay as they were. -/
theorem counters_walk_exactly (asks : ι → Step × String) (engine : Engine) (now : Nat)
    (turns : List (Turn ι Nat)) (key : String) :
    let p := (pool (stepping asks) engine now).run elapse turns
    (∀ (n : BoundedInt) (word : List Step), ∃ n' : BoundedInt,
      Value.walk key (.int n) word = .int n' ∧ n'.kind = n.kind ∧
      n'.val = n.kind.walk n.val word ∧
      ∀ d : Step,
        (n'.val = d.bound n.kind → (Value.int n').step key d = .error (d.overflow key)) ∧
        (n'.val ≠ d.bound n.kind → ∃ m : BoundedInt, (Value.int n').step key d = .ok (.int m) ∧
          m.kind = n.kind ∧ m.val = n'.val + delta d)) ∧
    (∀ (v : Value) (word : List Step), v.isInteger = false → Value.walk key v word = v ∧
      ∀ d : Step, v.step key d = .error (.notInteger key)) ∧
    (∀ (e : Entry) (n : BoundedInt), engine.table.find? key = some e → e.value = .int n →
      ∃ n' : BoundedInt, p.state.engine.table.find? key = some { e with value := .int n' } ∧
        n'.kind = n.kind ∧
        n'.val = n.val + moves asks p.threads key .up - moves asks p.threads key .down) ∧
    ((∀ i, (asks i).2 = key → succeeded p.threads i = false) →
      p.state.engine.table.find? key = engine.table.find? key) ∧
    (∀ x ∈ Pool.history elapse turns (pool (stepping asks) engine now), Judged asks x) ∧
    ∀ i, ∃ r, (p.turn elapse (.go i)).threads i = some (.done r) := by
  intro p
  obtain ⟨h, hjudged⟩ : Counting asks engine.table p ∧
      ∀ x ∈ [] ++ Pool.history elapse turns (pool (stepping asks) engine now), Judged asks x := by
    refine Pool.past_induction (I := fun p past => Counting asks engine.table p ∧
      ∀ x ∈ past, Judged asks x) ?_ turns ⟨counting_pool asks engine now, by simp⟩
    rintro q u x q' past ⟨hq, hpast⟩ hm
    obtain ⟨hq', hx⟩ := counting_moved hq hm
    refine ⟨hq', fun e he => ?_⟩
    rcases List.mem_append.mp he with he | he
    · exact hpast e he
    · exact hx e (Option.mem_toList.mp he)
  refine ⟨fun n word => ?_, fun v word hv => ?_, h.counted key, h.same key, hjudged,
    answered_of_counting h⟩
  · obtain ⟨n', hw, hk, hv⟩ := Value.walk_int key word n
    refine ⟨n', hw, hk, hv, fun d => ⟨fun hb => ?_, fun hb => ?_⟩⟩
    · exact Value.step_of_bound (hk ▸ hb)
    · rw [← hk] at hb ⊢
      exact Value.step_of_ne_bound key hb
  · exact ⟨Value.walk_of_not_isInteger hv key word, fun d => Value.step_of_not_isInteger hv⟩

/-- Two ups of an 8-bit number that is one below its end: the second one is refused. -/
theorem counters_walk_exactly_int8 :
    let asks : Bool → Step × String := fun _ => (.up, "n")
    let e : Entry := ⟨.int ⟨.int8, 126, by decide⟩, 0, .zero⟩
    let engine : Engine := { Engine.empty with table := Table.empty.insert "n" e }
    let p := (pool (stepping asks) engine 0).run elapse [.go false, .outside 7, .go true]
    p.threads true = some (.done (.error (.incrementOverflow "n"))) ∧
      ∃ n' : BoundedInt, p.state.engine.table.find? "n" = some { e with value := .int n' } ∧
        n'.kind = .int8 ∧ n'.val = 127 := by
  intro asks e engine p
  refine ⟨rfl, ?_⟩
  obtain ⟨-, -, hcounted, -⟩ :=
    counters_walk_exactly asks engine 0 [.go false, .outside 7, .go true] "n"
  obtain ⟨n', hn', hk, hval⟩ := hcounted e ⟨.int8, 126, by decide⟩ rfl rfl
  exact ⟨n', hn', hk, hval.trans (by decide)⟩

end Calls

end Solo
end LayeredCache
