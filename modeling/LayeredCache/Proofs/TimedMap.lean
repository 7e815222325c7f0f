import LayeredCache.Proofs.Solo
import Mathlib.Data.List.Forall2
import Mathlib.Data.List.Nodup

/-!
# The timed map

What a memory cache looks like from outside: a map from keys to values with their instants and
lifespans, on which the clock does nothing and reclamation is not known. An entry answers while it
is live. Reclamation takes out entries that are expired anyway, so all it can do to an answer is to
turn "expired" into "absent".

Results:
* `gives_unique`: the rules of the timed map determine its answers.
* `gives_of_does`, `gives_drainLive`: the table answers as the timed map that it is.
* `gives_of_faded`: a map that lost expired entries answers as the full one, up to "expired".
* `run_explained`: the answers of every run, with passes anywhere in it, are those of the timed map.
-/

namespace LayeredCache

/-- Values with the instants they were stored at and their lifespans, by key. -/
abbrev TimedMap := String → Option Entry

namespace TimedMap

/-- The entry lives forever, or no more than its lifespan has passed. -/
def Live (now : Nat) (e : Entry) : Prop :=
  e.lifespan.toNanos = 0 ∨ now - e.created ≤ e.lifespan.toNanos

instance (now : Nat) (e : Entry) : Decidable (Live now e) :=
  inferInstanceAs (Decidable (_ ∨ _))

/-- The value of a key that is there and live. -/
def look (m : TimedMap) (now : Nat) (key : String) : Answer Value :=
  match m key with
  | none => .error (.keyAbsent key)
  | some e => if Live now e then .ok e.value else .error (.keyExpired key)

/-- How far a step moves. -/
def delta : Step → Int
  | .up => 1
  | .down => -1

/-- **The rules of the timed map**: what a task answers at an instant, and the map then. -/
inductive Gives (now : Nat) (m : TimedMap) : Solo.Task → Answer Reply → TimedMap → Prop
  | get (key : String) : Gives now m (.call (.get key)) ((m.look now key).map .value) m
  | getMulti (keys : List String) :
      Gives now m (.call (.getMulti keys))
        ((Batch.collect (keys.map fun k => (k, m.look now k))).map .slots) m
  | isExist (key : String) :
      Gives now m (.call (.isExist key)) (.ok (.flag (m.look now key).isOk)) m
  | put (key : String) (v : Value) (ttl : Duration) :
      Gives now m (.call (.put key v ttl)) (.ok .nothing)
        (Function.update m key (some ⟨v, now, ttl⟩))
  | delete (key : String) :
      Gives now m (.call (.delete key)) (.ok .nothing) (Function.update m key none)
  | clearAll : Gives now m (.call .clearAll) (.ok .nothing) fun _ => none
  /-- A step changes the value alone. -/
  | step {d : Step} {key : String} {e : Entry} {n n' : BoundedInt} (he : m key = some e)
      (hl : Live now e) (hv : e.value = .int n) (hk : n'.kind = n.kind)
      (hn : n'.val = n.val + delta d) :
      Gives now m (.call (.step d key)) (.ok .nothing)
        (Function.update m key (some { e with value := .int n' }))
  | atBound {d : Step} {key : String} {n : BoundedInt} (h : m.look now key = .ok (.int n))
      (hb : n.val = d.bound n.kind) : Gives now m (.call (.step d key)) (.error (d.overflow key)) m
  | notInteger {d : Step} {key : String} {v : Value} (h : m.look now key = .ok v)
      (hv : v.isInteger = false) : Gives now m (.call (.step d key)) (.error (.notInteger key)) m
  | unread {d : Step} {key : String} {e : CacheError} (h : m.look now key = .error e) :
      Gives now m (.call (.step d key)) (.error e) m
  /-- Starting the loop is no business of the map. -/
  | start (payload : String) (r : Answer Reply) : Gives now m (.call (.start payload)) r m
  /-- A drain takes exactly the live entries, in any order. -/
  | drainLive {ps : List (String × Value)} (hn : (ps.map Prod.fst).Nodup)
      (hp : ∀ k v, (k, v) ∈ ps ↔ m.look now k = .ok v) :
      Gives now m .drainLive (.ok (.pairs ps)) fun k => (m k).filter fun e => ¬ Live now e

theorem look_eq_ok_iff {m : TimedMap} {now : Nat} {key : String} {v : Value} :
    m.look now key = .ok v ↔ ∃ e, m key = some e ∧ Live now e ∧ e.value = v := by
  unfold look
  cases m key with
  | none => simp
  | some e => by_cases hl : Live now e <;> simp [hl]

/-- A step that stays in the range does not start at its end. -/
theorem val_ne_bound {d : Step} {n n' : BoundedInt} (hk : n'.kind = n.kind)
    (hn : n'.val = n.val + delta d) : n.val ≠ d.bound n.kind := by
  have hr := n'.inRange
  rw [hk, hn] at hr
  cases d <;> simp only [delta, Step.bound] at hr ⊢ <;> omega

/-- **The rules leave no choice**, but for the order of a drain. -/
theorem gives_unique {now : Nat} {m n n' : TimedMap} {task : Solo.Task} {r r' : Answer Reply}
    (h : Gives now m task r n) (h' : Gives now m task r' n') :
    n' = n ∧ (r' = r ∨ (∃ payload, task = .call (.start payload)) ∨
      ∃ ps ps', r = .ok (.pairs ps) ∧ r' = .ok (.pairs ps') ∧ ps'.Perm ps) := by
  cases h with
  | get key => cases h'; exact ⟨rfl, .inl rfl⟩
  | getMulti keys => cases h'; exact ⟨rfl, .inl rfl⟩
  | isExist key => cases h'; exact ⟨rfl, .inl rfl⟩
  | put key v ttl => cases h'; exact ⟨rfl, .inl rfl⟩
  | delete key => cases h'; exact ⟨rfl, .inl rfl⟩
  | clearAll => cases h'; exact ⟨rfl, .inl rfl⟩
  | start payload r => cases h'; exact ⟨rfl, .inr (.inl ⟨payload, rfl⟩)⟩
  | @step d key e k k₁ he hl hv hk hn =>
    have hlook := look_eq_ok_iff.mpr ⟨e, he, hl, hv⟩
    cases h' with
    | @step _ _ e' l l₁ he' hl' hv' hk' hn' =>
      rw [he] at he'
      obtain rfl := Option.some.inj he'
      rw [hv] at hv'
      obtain rfl := Value.int.inj hv'
      obtain ⟨_, _, _⟩ := k₁
      obtain ⟨_, _, _⟩ := l₁
      obtain rfl := hk'.trans hk.symm
      obtain rfl := hn'.trans hn.symm
      exact ⟨rfl, .inl rfl⟩
    | atBound h hb =>
      obtain rfl := Value.int.inj (Except.ok.inj (hlook.symm.trans h))
      exact absurd hb (val_ne_bound hk hn)
    | notInteger h hv' =>
      obtain rfl := Except.ok.inj (hlook.symm.trans h)
      exact absurd hv' (by simp [Value.isInteger])
    | unread h => exact absurd (hlook.symm.trans h) (by simp)
  | atBound h hb =>
    cases h' with
    | step he hl hv hk hn =>
      have hlook := look_eq_ok_iff.mpr ⟨_, he, hl, hv⟩
      obtain rfl := Value.int.inj (Except.ok.inj (hlook.symm.trans h))
      exact absurd hb (val_ne_bound hk hn)
    | atBound h' hb' => exact ⟨rfl, .inl rfl⟩
    | notInteger h' hv' =>
      obtain rfl := Except.ok.inj (h.symm.trans h')
      exact absurd hv' (by simp [Value.isInteger])
    | unread h' => exact absurd (h.symm.trans h') (by simp)
  | notInteger h hv =>
    cases h' with
    | step he hl hv' hk hn =>
      have hlook := look_eq_ok_iff.mpr ⟨_, he, hl, hv'⟩
      obtain rfl := Except.ok.inj (hlook.symm.trans h)
      exact absurd hv (by simp [Value.isInteger])
    | atBound h' hb =>
      obtain rfl := Except.ok.inj (h'.symm.trans h)
      exact absurd hv (by simp [Value.isInteger])
    | notInteger h' hv' => exact ⟨rfl, .inl rfl⟩
    | unread h' => exact absurd (h.symm.trans h') (by simp)
  | unread h =>
    cases h' with
    | step he hl hv hk hn =>
      have hlook := look_eq_ok_iff.mpr ⟨_, he, hl, hv⟩
      exact absurd (hlook.symm.trans h) (by simp)
    | atBound h' hb => exact absurd (h'.symm.trans h) (by simp)
    | notInteger h' hv => exact absurd (h'.symm.trans h) (by simp)
    | unread h' =>
      obtain rfl := Except.error.inj (h'.symm.trans h)
      exact ⟨rfl, .inl rfl⟩
  | @drainLive ps hn hp =>
    cases h' with
    | @drainLive ps' hn' hp' =>
      refine ⟨rfl, .inr (.inr ⟨ps, ps', rfl, rfl, ?_⟩)⟩
      rw [List.perm_ext_iff_of_nodup (List.Nodup.of_map _ hn') (List.Nodup.of_map _ hn)]
      exact fun x => (hp' x.1 x.2).trans (hp x.1 x.2).symm

/-! ## The table as a timed map -/

theorem isExpiredAt_iff_not_live {now : Nat} {e : Entry} :
    e.isExpiredAt now = true ↔ ¬ Live now e := by
  rw [Entry.isExpiredAt_iff, Live]
  omega

theorem isExpiredAt_eq_false_iff_live {now : Nat} {e : Entry} :
    e.isExpiredAt now = false ↔ Live now e := by
  rw [← Bool.not_eq_true, isExpiredAt_iff_not_live, not_not]

theorem look_find? (t : Table) (now : Nat) (key : String) :
    look t.find? now key = t.read now key := by
  unfold look Table.read
  cases t.find? key with
  | none => rfl
  | some e =>
    by_cases hl : Live now e
    · simp [hl, isExpiredAt_iff_not_live]
    · simp [hl, isExpiredAt_iff_not_live.mpr hl]

theorem isOk_look (t : Table) (now : Nat) (key : String) :
    (look t.find? now key).isOk = t.isLive now key := by
  rw [look_find?]
  unfold Table.read Table.isLive
  cases t.find? key with
  | none => rfl
  | some e => cases h : e.isExpiredAt now <;> simp [h, Except.isOk, Except.toBool]

theorem find?_put (t : Table) (now : Nat) (key : String) (v : Value) (ttl : Duration) :
    (t.put now key v ttl).find? = Function.update t.find? key (some ⟨v, now, ttl⟩) := by
  funext k
  rw [Table.put, Table.find?_insert, Function.update_apply]

theorem find?_erase (t : Table) (key : String) :
    (t.erase key).find? = Function.update t.find? key none := by
  funext k
  rw [Table.find?_erase, Function.update_apply]

theorem find?_setValue {t : Table} {key : String} {e : Entry} (he : t.find? key = some e)
    (v : Value) :
    (t.setValue key v).find? = Function.update t.find? key (some { e with value := v }) := by
  funext k
  rw [Table.find?_setValue, Function.update_apply]
  by_cases hk : k = key
  · subst hk
    rw [if_pos rfl, if_pos rfl, he]
    rfl
  · rw [if_neg hk, if_neg hk]

theorem next?_val {d : Step} {n n' : BoundedInt} (h : d.next? n = some n') :
    n'.kind = n.kind ∧ n'.val = n.val + delta d := by
  cases d with
  | up => exact BoundedInt.up?_val h
  | down => exact BoundedInt.down?_val h

theorem gives_step {now : Nat} {t t' : Table} {d : Step} {key : String}
    (h : t.step now key d = .ok t') :
    Gives now t.find? (.call (.step d key)) (.ok .nothing) t'.find? := by
  unfold Table.step at h
  cases hr : t.read now key with
  | error e => simp [hr, bind, Except.bind] at h
  | ok v =>
    obtain ⟨e, he, hl, rfl⟩ := look_eq_ok_iff.mp ((look_find? t now key).trans hr)
    cases hv : e.value with
    | int n =>
      cases hn : d.next? n with
      | none => simp [hr, hv, hn, Value.step, bind, Except.bind] at h
      | some n' =>
        simp only [hr, hv, hn, Value.step, bind, Except.bind, pure, Except.pure,
          Except.ok.injEq] at h
        rw [← h, find?_setValue he]
        obtain ⟨hk, hd⟩ := next?_val hn
        exact .step he hl hv hk hd
    | _ => simp [hr, hv, Value.step, bind, Except.bind] at h

theorem gives_refuse {now : Nat} {t : Table} {d : Step} {key : String} {x : CacheError}
    (h : t.step now key d = .error x) :
    Gives now t.find? (.call (.step d key)) (.error x) t.find? := by
  have hl := look_find? t now key
  unfold Table.step at h
  cases hr : t.read now key with
  | error e =>
    simp only [hr, bind, Except.bind, Except.error.injEq] at h
    exact .unread (hl.trans (h ▸ hr))
  | ok v =>
    rw [hr] at hl
    cases v with
    | int n =>
      cases hn : d.next? n with
      | none =>
        simp only [hr, hn, Value.step, bind, Except.bind, Except.error.injEq] at h
        rw [← h]
        have hs : Value.step key d (.int n) = .error (d.overflow key) := by simp [Value.step, hn]
        exact .atBound hl (Value.step_eq_error_iff.mp hs)
      | some n' => simp [hr, hn, Value.step, bind, Except.bind, pure, Except.pure] at h
    | _ =>
      simp only [hr, Value.step, bind, Except.bind, Except.error.injEq] at h
      rw [← h]
      exact .notInteger hl rfl

/-- **The table is a timed map**: every call answers by its rules, and leaves it so. -/
theorem gives_of_does {now : Nat} {t t' : Table} {c : Call} {r : Answer Reply}
    (h : Memory.Does now t c r t') : Gives now t.find? (.call c) r t'.find? := by
  cases h with
  | get key =>
    rw [← look_find?]
    exact .get key
  | getMulti keys =>
    have hk : (keys.map fun k => (k, t.read now k)) =
        keys.map fun k => (k, look t.find? now k) :=
      List.map_congr_left fun k _ => by rw [look_find?]
    rw [Table.readEach, hk]
    exact .getMulti keys
  | isExist key =>
    rw [← isOk_look]
    exact .isExist key
  | put key v ttl =>
    rw [find?_put]
    exact .put key v ttl
  | delete key =>
    rw [find?_erase]
    exact .delete key
  | step h => exact gives_step h
  | refuse h => exact gives_refuse h
  | clearAll => exact .clearAll
  | start payload r => exact .start payload r

theorem gives_drainLive (now : Nat) (t : Table) :
    Gives now t.find? .drainLive (.ok (.pairs (t.drainLive now).1)) (t.drainLive now).2.find? := by
  have hf : (t.drainLive now).2.find? = fun k => (t.find? k).filter fun e => ¬ Live now e := by
    funext k
    rw [Table.find?_drainLive]
    simp only [← isExpiredAt_iff_not_live, Bool.decide_eq_true]
  rw [hf]
  refine .drainLive (Table.nodup_drainLive now t) fun k v => ?_
  simp only [Table.mem_drainLive_iff, look_eq_ok_iff, isExpiredAt_eq_false_iff_live]

/-! ## Maps that lost expired entries -/

/-- The map `m'` is `m` without some of its expired entries. -/
def Faded (now : Nat) (m m' : TimedMap) : Prop :=
  ∀ k, m' k = m k ∨ m' k = none ∧ ∃ e, m k = some e ∧ ¬ Live now e

/-- The same answer, or "absent" for "expired". -/
def Lapses {α : Type} (a a' : Answer α) : Prop :=
  a' = a ∨ ∃ key, a = .error (.keyExpired key) ∧ a' = .error (.keyAbsent key)

/-- What reclamation may do to an answer: to a single one, or inside a batch. -/
inductive Fades : Answer Reply → Answer Reply → Prop
  | single {r r' : Answer Reply} (h : Lapses r r') : Fades r r'
  | batch {os os' : List (String × Answer Value)}
      (h : List.Forall₂ (fun o o' => o'.1 = o.1 ∧ Lapses o.2 o'.2) os os') :
      Fades ((Batch.collect os).map .slots) ((Batch.collect os').map .slots)

theorem Lapses.refl {α : Type} (a : Answer α) : Lapses a a := .inl rfl

theorem Lapses.map {α β : Type} {a a' : Answer α} (h : Lapses a a') (f : α → β) :
    Lapses (a.map f) (a'.map f) := by
  rcases h with rfl | ⟨key, rfl, rfl⟩
  · exact .refl _
  · exact .inr ⟨key, rfl, rfl⟩

theorem faded_refl (now : Nat) (m : TimedMap) : Faded now m m := fun _ => .inl rfl

theorem not_live_mono {now later : Nat} (h : now ≤ later) {e : Entry} (he : ¬ Live now e) :
    ¬ Live later e := by
  unfold Live at he ⊢
  omega

theorem faded_mono {now later : Nat} (h : now ≤ later) {m m' : TimedMap} (hm : Faded now m m') :
    Faded later m m' := by
  intro k
  rcases hm k with hk | ⟨hk, e, he, hl⟩
  · exact .inl hk
  · exact .inr ⟨hk, e, he, not_live_mono h hl⟩

theorem faded_update {now : Nat} {m m' : TimedMap} (h : Faded now m m') (key : String)
    (e : Option Entry) : Faded now (Function.update m key e) (Function.update m' key e) := by
  intro k
  by_cases hk : k = key
  · subst hk
    rw [Function.update_self, Function.update_self]
    exact .inl rfl
  · rw [Function.update_of_ne hk, Function.update_of_ne hk]
    exact h k

/-- A removal takes out expired entries. -/
theorem faded_sweep {now : Nat} {m : TimedMap} {t : Table} (h : Faded now m t.find?)
    (keys : List String) : Faded now m (Table.sweep now keys t).2.find? := by
  intro k
  rcases Table.find?_sweep_cases now keys t k with hk | ⟨hk, e, he, hx⟩
  · rw [hk]
    exact h k
  · rcases h k with hm | ⟨hm, -⟩
    · exact .inr ⟨hk, e, hm.symm.trans he, isExpiredAt_iff_not_live.mp hx⟩
    · cases hm.symm.trans he

theorem lapses_look {now : Nat} {m m' : TimedMap} (h : Faded now m m') (key : String) :
    Lapses (m.look now key) (m'.look now key) := by
  unfold look
  rcases h key with hk | ⟨hk, e, he, hl⟩
  · rw [hk]
    exact .refl _
  · rw [hk, he]
    exact .inr ⟨key, if_neg hl, rfl⟩

theorem look_ok_iff {now : Nat} {m m' : TimedMap} (h : Faded now m m') {key : String} {v : Value} :
    m'.look now key = .ok v ↔ m.look now key = .ok v := by
  rcases lapses_look h key with hk | ⟨k, hk, hk'⟩
  · rw [hk]
  · rw [hk, hk']
    simp

/-- **A map that lost expired entries answers as the full one**, with "absent" for "expired" where
the entry is gone; and it stays the full one without some of its expired entries. -/
theorem gives_of_faded {now : Nat} {m m' n' : TimedMap} {task : Solo.Task} {r' : Answer Reply}
    (h : Faded now m m') (hg : Gives now m' task r' n') :
    ∃ r n, Gives now m task r n ∧ Fades r r' ∧ Faded now n n' := by
  cases hg with
  | get key => exact ⟨_, m, .get key, .single ((lapses_look h key).map _), h⟩
  | getMulti keys =>
    refine ⟨_, m, .getMulti keys, .batch ?_, h⟩
    rw [List.forall₂_map_left_iff, List.forall₂_map_right_iff, List.forall₂_same]
    exact fun k _ => ⟨rfl, lapses_look h k⟩
  | isExist key =>
    refine ⟨_, m, .isExist key, .single ?_, h⟩
    rcases lapses_look h key with hk | ⟨k, hk, hk'⟩
    · rw [hk]
      exact .refl _
    · rw [hk, hk']
      exact .refl _
  | put key v ttl => exact ⟨_, _, .put key v ttl, .single (.refl _), faded_update h key _⟩
  | delete key => exact ⟨_, _, .delete key, .single (.refl _), faded_update h key none⟩
  | clearAll => exact ⟨_, _, .clearAll, .single (.refl _), faded_refl now _⟩
  | @step d key e n k he hl hv hk hn =>
    have hm : m key = some e := by
      rcases h key with hm | ⟨hm, -⟩
      · rw [← hm, he]
      · rw [he] at hm
        exact absurd hm (by simp)
    exact ⟨_, _, .step hm hl hv hk hn, .single (.refl _), faded_update h key _⟩
  | atBound hl hb => exact ⟨_, m, .atBound ((look_ok_iff h).mp hl) hb, .single (.refl _), h⟩
  | notInteger hl hv =>
    exact ⟨_, m, .notInteger ((look_ok_iff h).mp hl) hv, .single (.refl _), h⟩
  | @unread d key x hl =>
    rcases lapses_look h key with hk | ⟨k, hk, hk'⟩
    · exact ⟨_, m, .unread (hk ▸ hl), .single (.refl _), h⟩
    · rw [hk'] at hl
      obtain rfl := Except.error.inj hl
      exact ⟨_, m, .unread hk, .single (.inr ⟨k, rfl, rfl⟩), h⟩
  | start payload r => exact ⟨_, m, .start payload _, .single (.refl _), h⟩
  | drainLive hn hp =>
    have hp' (k : String) (v : Value) := (hp k v).trans (look_ok_iff h)
    refine ⟨_, _, .drainLive hn hp', .single (.refl _), fun k => ?_⟩
    rcases h k with hk | ⟨hk, e, he, hl⟩
    · left
      simp only [hk]
    · right
      simp only [hk, he, Option.filter_none, Option.filter_some, hl, not_false_eq_true, decide_true,
        if_true]
      exact ⟨trivial, e, rfl, hl⟩

/-! ## Runs -/

variable {ι : Type} [DecidableEq ι] {tasks : ι → Solo.Task}

/-- **The timed map explains a history.** Every step but those of passes is a task that ends there,
with the answer of the map at that instant. Once a step of a pass has been taken, the answer may be
"absent" where the map says "expired". -/
def Explains (tasks : ι → Solo.Task) :
    Bool → TimedMap → List (Pool.Event ι Solo (Answer Reply)) → Prop
  | _, _, [] => True
  | reclaimed, m, x :: xs =>
    if (tasks x.who).isPass then Explains tasks true m xs
    else ∃ r r' m', x.answer = some r' ∧ Gives x.before.instant m (tasks x.who) r m' ∧
      (if reclaimed then Fades r r' else r' = r) ∧ Explains tasks reclaimed m' xs

/-- The table is the map, without some of its expired entries once there was a pass. -/
def Tracks (reclaimed : Bool) (now : Nat) (m : TimedMap) (t : Table) : Prop :=
  if reclaimed then Faded now m t.find? else m = t.find?

theorem faded_of_tracks {reclaimed : Bool} {now : Nat} {m : TimedMap} {t : Table}
    (h : Tracks reclaimed now m t) : Faded now m t.find? := by
  cases reclaimed with
  | true => exact h
  | false =>
    obtain rfl : m = t.find? := h
    exact faded_refl now _

theorem tracks_mono {reclaimed : Bool} {now later : Nat} (hn : now ≤ later) {m : TimedMap}
    {t : Table} (h : Tracks reclaimed now m t) : Tracks reclaimed later m t := by
  cases reclaimed with
  | true => exact faded_mono hn h
  | false => exact h

/-- A step of a pass takes out expired entries or nothing. -/
theorem faded_of_passes {s s' : Solo} {stage stage' : Memory.Stage} {m : TimedMap}
    (h : Faded s.instant m s.engine.table.find?) (hp : Solo.memory.Passes s stage stage' s') :
    Faded s'.instant m s'.engine.table.find? := by
  cases hp with
  | evict keys => exact faded_sweep h keys
  | _ => exact h

/-- What the table answers by its rules is what the map answers. -/
theorem explained_step {reclaimed : Bool} {now : Nat} {m : TimedMap} {t t' : Table}
    {task : Solo.Task} {r' : Answer Reply} (h : Tracks reclaimed now m t)
    (hg : Gives now t.find? task r' t'.find?) :
    ∃ r m', Gives now m task r m' ∧ (if reclaimed then Fades r r' else r' = r) ∧
      Tracks reclaimed now m' t' := by
  cases reclaimed with
  | true => exact gives_of_faded h hg
  | false =>
    obtain rfl : m = t.find? := h
    exact ⟨r', _, hg, rfl, rfl⟩

/-- A step of a call or a drain ends it, as the map says. -/
theorem explained_of_steps {reclaimed : Bool} {m : TimedMap} {task : Solo.Task} {s s' : Solo}
    {q q' : Process Solo (Answer Reply)} (hp : task.isPass = false)
    (h : Tracks reclaimed s.instant m s.engine.table) (hs : Solo.Steps s task q q' s') :
    ∃ r r' m', q'.answer? = some r' ∧ Gives s.instant m task r m' ∧
      (if reclaimed then Fades r r' else r' = r) ∧
      Tracks reclaimed s'.instant m' s'.engine.table := by
  cases hs with
  | call hw hd =>
    obtain ⟨r, m', hg, hf, ht⟩ := explained_step h (gives_of_does hd)
    exact ⟨r, _, m', rfl, hg, hf, ht⟩
  | drainLive =>
    obtain ⟨r, m', hg, hf, ht⟩ := explained_step h (gives_drainLive s.instant s.engine.table)
    exact ⟨r, _, m', rfl, hg, hf, ht⟩
  | pass ht _ =>
    rw [hp] at ht
    exact absurd ht (by simp)

/-- A step of a pass leaves the map as it is. -/
theorem tracks_of_steps {reclaimed : Bool} {m : TimedMap} {task : Solo.Task} {s s' : Solo}
    {q q' : Process Solo (Answer Reply)} (hp : task.isPass = true)
    (h : Tracks reclaimed s.instant m s.engine.table) (hs : Solo.Steps s task q q' s') :
    Tracks true s'.instant m s'.engine.table := by
  cases hs with
  | call hw hd => exact absurd hp (by simp [Solo.Task.isPass])
  | drainLive => exact absurd hp (by simp [Solo.Task.isPass])
  | pass _ hs => exact faded_of_passes (faded_of_tracks h) hs

/-- The induction is on the schedule; what remains of the tasks and how the table tracks the map
are carried along. -/
theorem explained_history : ∀ (turns : List (Turn ι Nat)) {p : Pool ι Solo (Answer Reply)}
    {reclaimed : Bool} {m : TimedMap}, Solo.Underway tasks p →
    Tracks reclaimed p.state.instant m p.state.engine.table →
    Explains tasks reclaimed m (Pool.history Solo.elapse turns p)
  | [], _, _, _, _, _ => trivial
  | t :: ts, p, reclaimed, m, hu, hm => by
    have ht := Solo.turned_of_moved hu (Pool.moved_turn Solo.elapse p t)
    have hu' := Solo.underway_turned hu ht
    rw [Pool.history]
    generalize p.event? t = x, p.turn Solo.elapse t = p' at ht hu'
    cases ht with
    | idle nanos => exact explained_history ts hu' (tracks_mono (Nat.le_add_right _ _) hm)
    | @step i q q' s hq hn hs =>
      change Explains tasks reclaimed m (_ :: _)
      rw [Explains]
      by_cases hp : (tasks i).isPass = true
      · rw [if_pos hp]
        exact explained_history ts hu' (tracks_of_steps hp hm hs)
      · rw [if_neg hp]
        obtain ⟨r, r', m', ha, hg, hf, hm'⟩ := explained_of_steps (by simpa using hp) hm hs
        exact ⟨r, r', m', ha, hg, hf, explained_history ts hu' hm'⟩

/-- **A memory cache answers as a timed map.** Any tasks, in any number and order of steps, with
the clock moving on between them: every answer is the one of a timed map that knows no reclamation,
and it is so to the letter until a pass takes a step; from then on "expired" may read "absent". -/
theorem run_explained (tasks : ι → Solo.Task) (engine : Engine) (now : Nat)
    (turns : List (Turn ι Nat)) :
    Explains tasks false engine.table.find?
      (Pool.history Solo.elapse turns (Solo.pool tasks engine now)) :=
  explained_history turns (Solo.underway_pool tasks engine now) rfl

end TimedMap
end LayeredCache
