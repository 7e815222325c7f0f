import LayeredCache.Layer.Memory
import LayeredCache.Layer.ReadThrough
import LayeredCache.Proofs.BatchRead
import LayeredCache.Proofs.Company

/-!
# Batch reads that fill the cache

A batch read through a memory engine, with nobody else at the engine. The loads run side by side and
wait as they like, so that they end in any order; what each of them comes to is fixed during the
call.

Time passes whenever it likes, also between the steps of the call. The call looks at all keys at
once, and unless all are live it looks once more at the key of each slot by itself. A key that
expires between these two looks is loaded although it was live when the call began. So what is told
in a slot depends on the instant of the look at its key: the value that was live when the call
began, if it still is at this look, else what the load of the key comes to. Every key that was
loaded is cached in the end.

The looks at single keys are recorded with their instants, and so are the loads; nothing depends on
these records. The call begins with its first step, the look at all keys.

Results:
* `tells_unique`, `tells_ok_iff`: the outcomes of a batch decide its answer and whether it succeeds.
* `fulfils_reply`: what the read of one key comes to after its look, while the others go on.
* `run_filled`: what a batch read has done whenever it ends, and that it can always end.
* `live_key_loaded`: a key that expires between the two looks.
-/

namespace LayeredCache

open Process

theorem Rows.none_mem_iff_error {keys : List String} {outcomes : List (Answer Value)}
    {slots : List (Option Value)} {texts : List String} (h : Rows keys outcomes slots texts) :
    none ∈ slots ↔ ∃ e, .error e ∈ outcomes := by
  induction h with
  | nil => simp
  | filled key v _ ih => simpa using ih
  | empty key e _ ih => exact ⟨fun _ => ⟨e, List.mem_cons_self⟩, fun _ => List.mem_cons_self⟩

theorem Rows.unique {keys : List String} {outcomes : List (Answer Value)}
    {slots slots' : List (Option Value)} {texts texts' : List String}
    (h : Rows keys outcomes slots texts) (h' : Rows keys outcomes slots' texts') :
    slots = slots' ∧ texts = texts' := by
  induction h generalizing slots' texts' with
  | nil =>
    cases h'
    exact ⟨rfl, rfl⟩
  | filled key v _ ih =>
    cases h' with
    | filled _ _ h' =>
      obtain ⟨rfl, rfl⟩ := ih h'
      exact ⟨rfl, rfl⟩
  | empty key e _ ih =>
    cases h' with
    | empty _ _ h' =>
      obtain ⟨rfl, rfl⟩ := ih h'
      exact ⟨rfl, rfl⟩

/-- The outcomes decide the answer. -/
theorem tells_unique {keys : List String} {outcomes : List (Answer Value)}
    {r r' : Answer (List (Option Value))} (h : Tells keys outcomes r)
    (h' : Tells keys outcomes r') : r = r' := by
  cases h with
  | complete hr _ hf =>
    cases h' with
    | complete hr' _ _ => rw [(hr.unique hr').1]
    | incomplete hr' _ he _ => exact absurd ((hr.unique hr').1 ▸ he) hf
  | incomplete hr _ he _ =>
    cases h' with
    | complete hr' _ hf => exact absurd ((hr.unique hr').1 ▸ he) hf
    | incomplete hr' _ _ _ =>
      obtain ⟨rfl, rfl⟩ := hr.unique hr'
      rfl

/-- A batch succeeds if every outcome does. -/
theorem tells_ok_iff {keys : List String} {outcomes : List (Answer Value)}
    {r : Answer (List (Option Value))} (h : Tells keys outcomes r) :
    (∃ vs, r = .ok vs) ↔ ∀ o ∈ outcomes, ∃ v, o = .ok v := by
  have all : (∀ o ∈ outcomes, ∃ v, o = .ok v) ↔ ¬ ∃ e, .error e ∈ outcomes := by
    constructor
    · rintro h ⟨e, he⟩
      obtain ⟨v, hv⟩ := h _ he
      cases hv
    · intro h o ho
      cases o with
      | ok v => exact ⟨v, rfl⟩
      | error e => exact absurd ⟨e, ho⟩ h
  rw [all]
  cases h with
  | complete hr _ hf => exact ⟨fun _ => hr.none_mem_iff_error.not.mp hf, fun _ => ⟨_, rfl⟩⟩
  | incomplete hr _ he _ =>
    refine ⟨?_, fun hn => absurd (hr.none_mem_iff_error.mp he) hn⟩
    rintro ⟨vs, hvs⟩
    cases hvs

namespace Table

/-- An entry that cannot be read cannot be read later. -/
theorem read_later {t t' : Table} {key : String} {now later : Nat} {e : CacheError}
    (h : t'.find? key = t.find? key) (hle : now ≤ later) (he : t.read now key = .error e) :
    ∃ e', t'.read later key = .error e' := by
  unfold read at he ⊢
  rw [h]
  cases hf : t.find? key with
  | none => exact ⟨_, rfl⟩
  | some x =>
    rw [hf] at he
    cases hx : x.isExpiredAt now with
    | false => simp [hx] at he
    | true => exact ⟨_, if_pos (Entry.isExpiredAt_mono hle hx)⟩

/-- What is read is the value of an entry. -/
theorem find?_of_read {t : Table} {key : String} {now : Nat} {v : Value}
    (h : t.read now key = .ok v) : ∃ x, t.find? key = some x ∧ x.value = v := by
  unfold read at h
  cases hf : t.find? key with
  | none =>
    rw [hf] at h
    cases h
  | some x =>
    rw [hf] at h
    dsimp only at h
    split at h
    · cases h
    · exact ⟨x, rfl, Except.ok.inj h⟩

end Table

/-- An engine and its clock, the looks at single keys with their instants and the keys that were
loaded, both oldest first, and the rest of the state. -/
structure Filling (ρ : Type) where
  instant : Nat
  engine : Engine
  looked : List (String × Nat)
  loaded : List String
  rest : ρ

namespace Filling

variable {ρ ε : Type}

instance : Clock (Filling ρ) := ⟨Filling.instant⟩

instance [Journal ρ] : Journal (Filling ρ) :=
  ⟨fun v t s => { s with rest := Journal.note v t s.rest }⟩

def rested : Slot (Filling ρ) ρ := ⟨Filling.rest, fun r s => { s with rest := r }, fun _ _ => rfl⟩

/-- The engine as a cache. Nothing is evicted from it. -/
def memory : Memory (Filling ρ) :=
  ⟨⟨Filling.engine, fun e s => { s with engine := e }, fun _ _ => rfl⟩, fun _ _ => id⟩

/-- A look at a key, recorded. -/
def see (key : String) (s : Filling ρ) : Filling ρ :=
  { s with looked := s.looked ++ [(key, s.instant)] }

/-- The process, whose first step also records a look at the key. -/
def seeing {α : Type} (key : String) : Process (Filling ρ) α → Process (Filling ρ) α
  | .act g k => .act (fun s => see key (g s)) k
  | p => p

/-- The engine as a cache that records the looks at single keys. -/
def cache : Cache (Filling ρ) :=
  { memory.cache with get := fun key => seeing key (memory.cache.get key) }

/-- A load, recorded. -/
def source (load : Loader ρ) : Loader (Filling ρ) := fun key => do
  Process.change fun s => { s with loaded := s.loaded ++ [key] }
  (load key).embed rested

/-- Something happens elsewhere while time passes. -/
def elapse (effect : ε → ρ → ρ) (x : ε × Nat) (s : Filling ρ) : Filling ρ :=
  { s with instant := s.instant + x.2, rest := effect x.1 s.rest }

/-- What the table of the engine answers for a key at an instant. -/
def readAt (s : Filling ρ) (now : Nat) (key : String) : Answer Value := s.engine.table.read now key

def read (s : Filling ρ) (key : String) : Answer Value := s.readAt s.instant key

def find? (s : Filling ρ) (key : String) : Option Entry := s.engine.table.find? key

/-- A state at which nothing has been recorded. -/
def fresh (now : Nat) (e : Engine) (r : ρ) : Filling ρ := ⟨now, e, [], [], r⟩

/-- A batch read that has not begun. -/
def pool [Journal ρ] (load : Loader ρ) (ttl : Duration) (keys : List String) (s : Filling ρ) :
    Pool Unit (Filling ρ) (Answer (List (Option Value))) :=
  ⟨s, fun _ => some ((ReadThrough.cache cache (source load) ttl).getMulti keys)⟩

/-! ## What a call may lead to -/

section Call

variable (I : ρ → Prop) (outcome : String → Except Cause Value) (ttl : Duration)
  (keys : List String) (s₀ : Filling ρ)

/-- What is answered for a key that is loaded. -/
def loadedAs (key : String) : Answer Value :=
  match outcome key with
  | .ok v => .ok v
  | .error c => .error (.loadFailed key c)

/-- What a look at a key leads to: the value that was there when the call began, if it is live at
this look, else what the load of the key comes to. -/
def found (x : String × Nat) : Answer Value :=
  match s₀.readAt x.2 x.1 with
  | .ok v => .ok v
  | .error _ => loadedAs outcome x.1

/-- At this look, nothing is live of what was there when the call began. -/
def Missed (x : String × Nat) : Prop := ∃ e, s₀.readAt x.2 x.1 = .error e

/-- The loaded value of a key has been cached since the call began. -/
def Cached (key : String) (s : Filling ρ) : Prop :=
  ∃ v at', outcome key = .ok v ∧ s.find? key = some ⟨v, at', ttl⟩ ∧ s₀.instant ≤ at' ∧
    at' ≤ s.instant

/-- What may have become of the state since the call began. -/
structure Since (s : Filling ρ) : Prop where
  instant : s₀.instant ≤ s.instant
  engine : s.engine = { s₀.engine with table := s.engine.table }
  /-- Entries change only by being loaded. -/
  entry : ∀ k, s.find? k = s₀.find? k ∨ k ∈ s.loaded ∧ Cached outcome ttl s₀ k s
  looked : ∀ x ∈ s.looked, s₀.instant ≤ x.2 ∧ x.2 ≤ s.instant
  /-- Only keys are loaded that a look has missed. -/
  loaded : ∀ k ∈ s.loaded, ∃ x ∈ s.looked, x.1 = k ∧ Missed s₀ x
  rest : I s.rest

/-- What is kept, by whatever happens. -/
structure Onward (s t : Filling ρ) : Prop where
  instant : s.instant ≤ t.instant
  looked : s.looked <+: t.looked
  loaded : s.loaded <+: t.loaded
  since : Since I outcome ttl s₀ s → Since I outcome ttl s₀ t
  cached : ∀ k, Cached outcome ttl s₀ k s → Cached outcome ttl s₀ k t

/-- What a look has led to: if it missed, then the key was loaded, and is cached if that
succeeded. -/
structure Settled (x : String × Nat) (o : Answer Value) (s : Filling ρ) : Prop where
  answer : o = found outcome s₀ x
  loaded : Missed s₀ x → x.1 ∈ s.loaded
  cached : Missed s₀ x → ∀ v, outcome x.1 = .ok v → Cached outcome ttl s₀ x.1 s

end Call

variable {I : ρ → Prop} {outcome : String → Except Cause Value} {ttl : Duration}
  {keys : List String} {s₀ s t : Filling ρ} {x : String × Nat} {key : String} {v : Value}

theorem Onward.refl : Onward I outcome ttl s₀ s s :=
  ⟨Nat.le_refl _, List.prefix_rfl, List.prefix_rfl, id, fun _ => id⟩

theorem Onward.trans {u : Filling ρ} (h : Onward I outcome ttl s₀ s t)
    (h' : Onward I outcome ttl s₀ t u) : Onward I outcome ttl s₀ s u :=
  ⟨Nat.le_trans h.1 h'.1, h.2.trans h'.2, h.3.trans h'.3, h'.4 ∘ h.4, fun k => h'.5 k ∘ h.5 k⟩

variable (I outcome ttl s₀) in
/-- What the read of a key does once it has looked at it, and what may happen beside it: others may
still have to look at theirs. -/
def company : Company (Filling ρ) where
  own s t := Onward I outcome ttl s₀ s t ∧ t.looked = s.looked
  moves := Onward I outcome ttl s₀
  refl _ := ⟨.refl, rfl⟩
  trans h h' := ⟨h.1.trans h'.1, h'.2.trans h.2⟩
  moves_trans := .trans
  moves_of_own h := h.1

theorem since_refl (h : I s₀.rest) (hlooked : s₀.looked = []) (hloaded : s₀.loaded = []) :
    Since I outcome ttl s₀ s₀ where
  instant := Nat.le_refl _
  engine := rfl
  entry _ := .inl rfl
  looked x hx := by simp [hlooked] at hx
  loaded k hk := by simp [hloaded] at hk
  rest := h

theorem Settled.onward {o : Answer Value} (h : Settled outcome ttl s₀ x o s)
    (hm : Onward I outcome ttl s₀ s t) : Settled outcome ttl s₀ x o t :=
  ⟨h.answer, fun hx => hm.loaded.subset (h.loaded hx),
    fun hx v hv => hm.cached _ (h.cached hx v hv)⟩

/-! ## Looks -/

theorem found_of_missed (h : Missed s₀ x) : found outcome s₀ x = loadedAs outcome x.1 := by
  obtain ⟨e, he⟩ := h
  rw [found, he]

theorem not_missed (h : s₀.readAt x.2 x.1 = .ok v) : ¬ Missed s₀ x :=
  fun ⟨_, he⟩ => nomatch h.symm.trans he

/-- What was missed once is missed ever after. -/
theorem Missed.later {now later : Nat} (h : Missed s₀ (key, now)) (hle : now ≤ later) :
    Missed s₀ (key, later) := by
  obtain ⟨e, he⟩ := h
  exact Table.read_later rfl hle he

/-- What is live twice is the same. -/
theorem found_of_iff {now later : Nat}
    (h : Missed s₀ (key, now) ↔ Missed s₀ (key, later)) :
    found outcome s₀ (key, now) = found outcome s₀ (key, later) := by
  by_cases hm : Missed s₀ (key, now)
  · rw [found_of_missed hm, found_of_missed (h.mp hm)]
  · have hm' := h.not.mp hm
    cases hr : s₀.readAt now key with
    | error e => exact absurd ⟨e, hr⟩ hm
    | ok v =>
      cases hr' : s₀.readAt later key with
      | error e => exact absurd ⟨e, hr'⟩ hm'
      | ok w =>
        obtain ⟨y, hy, rfl⟩ := Table.find?_of_read hr
        obtain ⟨z, hz, rfl⟩ := Table.find?_of_read hr'
        obtain rfl := Option.some.inj (hy.symm.trans hz)
        rw [found, found, hr, hr']

/-- What a key reads as depends on its entry. -/
theorem readAt_congr (h : s.find? key = s₀.find? key) (now : Nat) :
    s.readAt now key = s₀.readAt now key := by
  have hf : s.engine.table.find? key = s₀.engine.table.find? key := h
  unfold readAt Table.read
  rw [hf]

/-- A key that has been loaded had been missed. -/
theorem Since.missed (hs : Since I outcome ttl s₀ s) (hk : key ∈ s.loaded) :
    Missed s₀ (key, s.instant) := by
  obtain ⟨⟨k, now⟩, hmem, rfl, hm⟩ := hs.loaded key hk
  exact hm.later (hs.looked _ hmem).2

/-- A look that finds a value settles its slot. -/
theorem settled_of_read (hs : Since I outcome ttl s₀ s) (hr : s.read key = .ok v) :
    Settled outcome ttl s₀ (key, s.instant) (.ok v) s := by
  rcases hs.entry key with he | ⟨hk, hc⟩
  · have hr₀ : s₀.readAt s.instant key = .ok v := (readAt_congr he _).symm.trans hr
    refine ⟨?_, fun hm => absurd hm (not_missed hr₀), fun hm => absurd hm (not_missed hr₀)⟩
    rw [found, hr₀]
  · obtain ⟨v', at', hv, hf, -⟩ := id hc
    obtain ⟨y, hy, rfl⟩ := Table.find?_of_read hr
    obtain rfl := Option.some.inj (hf.symm.trans hy)
    refine ⟨?_, fun _ => hk, fun _ _ _ => hc⟩
    rw [found_of_missed (hs.missed hk), loadedAs, hv]

/-- A look that finds nothing has missed. -/
theorem missed_of_read (hs : Since I outcome ttl s₀ s) {e : CacheError}
    (hr : s.read key = .error e) : Missed s₀ (key, s.instant) := by
  rcases hs.entry key with he | ⟨hk, -⟩
  · exact ⟨e, (readAt_congr he _).symm.trans hr⟩
  · exact hs.missed hk

/-! ## The moves of a call -/

theorem onward_see (s : Filling ρ) (key : String) : Onward I outcome ttl s₀ s (see key s) := by
  have grown : s.looked <+: (see key s).looked := List.prefix_append ..
  refine ⟨Nat.le_refl _, grown, List.prefix_rfl, fun hs => ?_, fun _ => id⟩
  refine { hs with looked := fun x hx => ?_, loaded := fun k hk => ?_ }
  · rcases List.mem_append.mp hx with hx | hx
    · exact hs.looked x hx
    · obtain rfl := List.mem_singleton.mp hx
      exact ⟨hs.instant, Nat.le_refl _⟩
  · obtain ⟨x, hx, hm⟩ := hs.loaded k hk
    exact ⟨x, grown.subset hx, hm⟩

/-- A load begins. -/
def begun (key : String) (s : Filling ρ) : Filling ρ := { s with loaded := s.loaded ++ [key] }

theorem mem_begun : key ∈ (begun key s).loaded :=
  List.mem_append_right _ (List.mem_singleton_self _)

/-- What a look has missed may be loaded. -/
theorem own_begun (hx : x ∈ s.looked) (hm : Missed s₀ x) :
    (company I outcome ttl s₀).own s (begun x.1 s) := by
  have grown : s.loaded <+: (begun x.1 s).loaded := List.prefix_append ..
  refine ⟨⟨Nat.le_refl _, List.prefix_rfl, grown, fun hs => ?_, fun _ => id⟩, rfl⟩
  refine { hs with entry := fun k => ?_, loaded := fun k hk => ?_ }
  · exact (hs.entry k).imp_right fun ⟨hk, hc⟩ => ⟨grown.subset hk, hc⟩
  · rcases List.mem_append.mp hk with hk | hk
    · exact hs.loaded k hk
    · obtain rfl := List.mem_singleton.mp hk
      exact ⟨x, hx, rfl, hm⟩

theorem own_rested {r : ρ} (hr : I r) : (company I outcome ttl s₀).own s (rested.set r s) :=
  ⟨⟨Nat.le_refl _, List.prefix_rfl, List.prefix_rfl, fun hs => { hs with rest := hr },
    fun _ => id⟩, rfl⟩

/-- The state after a put. -/
def stored (key : String) (v : Value) (ttl : Duration) (s : Filling ρ) : Filling ρ :=
  { s with engine := { s.engine with table := s.engine.table.put s.instant key v ttl } }

theorem find?_stored (k : String) : (stored key v ttl s).find? k =
    if k = key then some ⟨v, s.instant, ttl⟩ else s.find? k := Table.find?_insert _ _ _ _

theorem cached_stored (hs : s₀.instant ≤ s.instant) (hv : outcome key = .ok v) :
    Cached outcome ttl s₀ key (stored key v ttl s) :=
  ⟨v, s.instant, hv, by rw [find?_stored, if_pos rfl], hs, Nat.le_refl _⟩

theorem find?_stored_of_ne {k : String} (h : k ≠ key) :
    (stored key v ttl s).find? k = s.find? k := by rw [find?_stored, if_neg h]

/-- What a load came to may be cached. -/
theorem own_stored (hs : Since I outcome ttl s₀ s) (hk : key ∈ s.loaded)
    (hv : outcome key = .ok v) : (company I outcome ttl s₀).own s (stored key v ttl s) := by
  have cached (k : String) (hc : Cached outcome ttl s₀ k s) :
      Cached outcome ttl s₀ k (stored key v ttl s) := by
    by_cases h : k = key
    · subst h
      exact cached_stored hs.instant hv
    · obtain ⟨v', at', hv', hf, hat⟩ := hc
      exact ⟨v', at', hv', (find?_stored_of_ne h).trans hf, hat⟩
  refine ⟨⟨Nat.le_refl _, List.prefix_rfl, List.prefix_rfl,
    fun hs => { hs with engine := ?_, entry := fun k => ?_ }, cached⟩, rfl⟩
  · change ({ s.engine with table := _ } : Engine) = _
    rw [hs.engine]
    rfl
  · by_cases h : k = key
    · subst h
      exact .inr ⟨hk, cached_stored hs.instant hv⟩
    · rcases hs.entry k with he | ⟨hk, hc⟩
      · exact .inl ((find?_stored_of_ne h).trans he)
      · exact .inr ⟨hk, cached k hc⟩

theorem own_elapse {effect : ε → ρ → ρ} (heffect : ∀ y r, I r → I (effect y r)) (y : ε × Nat)
    (s : Filling ρ) : (company I outcome ttl s₀).own s (elapse effect y s) := by
  have hle : s.instant ≤ s.instant + y.2 := Nat.le_add_right _ _
  have cached (k : String) (hc : Cached outcome ttl s₀ k s) :
      Cached outcome ttl s₀ k (elapse effect y s) := by
    obtain ⟨v, at', hv, hf, h₁, h₂⟩ := hc
    exact ⟨v, at', hv, hf, h₁, Nat.le_trans h₂ hle⟩
  refine ⟨⟨hle, List.prefix_rfl, List.prefix_rfl, fun hs => ?_, cached⟩, rfl⟩
  exact ⟨Nat.le_trans hs.instant hle, hs.engine, fun k => (hs.entry k).imp_right fun h =>
    ⟨h.1, cached k h.2⟩, fun x hx => ⟨(hs.looked x hx).1, Nat.le_trans (hs.looked x hx).2 hle⟩,
    hs.loaded, heffect _ _ hs.rest⟩

/-! ## The read of one key -/

section Reading

variable [Journal ρ] {load : Loader ρ}

omit [Journal ρ] in
/-- A load answers what is fixed for its key. -/
theorem fulfils_source (hload : Maintains I (· = outcome x.1) (load x.1))
    (hs : Since I outcome ttl s₀ s) (hx : x ∈ s.looked) (hm : Missed s₀ x) :
    Fulfils (company I outcome ttl s₀)
      (fun a t => a = outcome x.1 ∧ x.1 ∈ t.loaded) (source load x.1) s := by
  refine .act (fun t ht => own_begun (ht.looked.subset hx) hm) fun t ht => ?_
  have hown : (company I outcome ttl s₀).own t (begun x.1 t) :=
    own_begun (ht.looked.subset hx) hm
  have hs' : Since I outcome ttl s₀ (begun x.1 t) := hown.1.since (ht.since hs)
  have hfixed := fulfils_embed hload (C := company I outcome ttl s₀) (s := begun x.1 t)
    (fun u hu => (hu.since hs').rest) fun u r _ hr => own_rested (s := u) hr
  exact hfixed.and fun u hu => hu.loaded.subset mem_begun

/-- What was loaded is cached. -/
theorem fulfils_keep (hs : Since I outcome ttl s₀ s) (hm : Missed s₀ x) (hk : x.1 ∈ s.loaded)
    (words : String) :
    Fulfils (company I outcome ttl s₀) (Settled outcome ttl s₀ x)
      (Loader.keep cache ttl words x.1 (outcome x.1)) s := by
  have hfound : found outcome s₀ x = loadedAs outcome x.1 := found_of_missed hm
  cases hv : outcome x.1 with
  | error c =>
    refine .done fun t ht => ⟨?_, fun _ => ht.loaded.subset hk, fun _ v hv' => ?_⟩
    · rw [hfound, loadedAs, hv]
    · exact nomatch hv.symm.trans hv'
  | ok v =>
    refine .act (fun t ht => own_stored (ht.since hs) (ht.loaded.subset hk) hv) fun t ht => ?_
    have hs' := ht.since hs
    refine .done fun u hu => ⟨?_, fun _ => ?_, fun _ _ _ => ?_⟩
    · rw [hfound, loadedAs, hv]
    · exact hu.loaded.subset (ht.loaded.subset hk)
    · exact hu.cached _ (cached_stored hs'.instant hv)

/-- What is left of the read of a key once it has been looked at. -/
def reply (load : Loader ρ) (ttl : Duration) (key : String) (s : Filling ρ) :
    Process (Filling ρ) (Answer Value) :=
  match s.read key with
  | .ok v => .done (.ok v)
  | .error _ => (source load).fetch cache ttl "Read-through could not cache key" key

/-- **What the read of one key comes to** after its look, while others go on beside it. -/
theorem fulfils_reply (hload : Maintains I (· = outcome key) (load key))
    (hs : Since I outcome ttl s₀ s) :
    Fulfils (company I outcome ttl s₀) (Settled outcome ttl s₀ (key, s.instant))
      (reply load ttl key s) (see key s) := by
  have hsee : Onward I outcome ttl s₀ s (see key s) := onward_see s key
  unfold reply
  cases hr : s.read key with
  | ok v => exact .done fun t ht => (settled_of_read hs hr).onward (hsee.trans ht)
  | error e =>
    have hm := missed_of_read hs hr
    have hx : (key, s.instant) ∈ (see key s).looked :=
      List.mem_append_right _ (List.mem_singleton_self _)
    have hs' := hsee.since hs
    refine fulfils_bind (fulfils_source hload hs' hx hm) fun a t ht ha => ?_
    obtain ⟨rfl, hk⟩ := ha t .refl
    exact fulfils_keep (ht.since hs') hm hk _

/-! ## The whole batch -/

/-- What is left of the batch if not all keys are live. -/
def oneByOne (load : Loader ρ) (ttl : Duration) (keys : List String) :
    Process (Filling ρ) (Answer (List (Option Value))) :=
  (Process.all (keys.map (ReadThrough.get cache (source load) ttl))).bind fun outcomes =>
    .done (Batch.collect (keys.zip outcomes))

/-- What the batch comes to: an answer made of what its looks lead to. -/
def Completes (outcome : String → Except Cause Value) (ttl : Duration) (keys : List String)
    (s₀ : Filling ρ) (looks : List (String × Nat)) (r : Answer (List (Option Value)))
    (t : Filling ρ) : Prop :=
  ∃ outcomes, List.Forall₂ (fun x o => Settled outcome ttl s₀ x o t) looks outcomes ∧
    Tells keys outcomes r

/-- **What a batch read comes to** that looks at each key by itself. -/
theorem opens_oneByOne (hload : ∀ key, Maintains I (· = outcome key) (load key))
    (hs : Since I outcome ttl s₀ s) :
    Opens (company I outcome ttl s₀) see (Completes outcome ttl keys s₀) keys
      (oneByOne load ttl keys) s := by
  have hget (key : String) : ReadThrough.get cache (source load) ttl key =
      .act (see key) (reply load ttl key) := rfl
  have hall : Opens (company I outcome ttl s₀) see (fun looks outcomes t =>
      looks.map Prod.fst = keys ∧
        List.Forall₂ (fun x o => Settled outcome ttl s₀ x o t) looks outcomes) keys
      (Process.all (keys.map (ReadThrough.get cache (source load) ttl))) s :=
    opens_all (fun key t => onward_see t key) hget
      fun key _ t ht => fulfils_reply (hload key) (ht.since hs)
  refine opens_bind hall fun looks outcomes t h => .done fun u hu => ?_
  obtain ⟨hkeys, hsettled⟩ := h u hu
  refine ⟨outcomes, hsettled, tells_collect ?_⟩
  rw [← hsettled.length_eq, ← hkeys, List.length_map]

/-- If every wait of the loads can be ended, then so can every wait of the batch. -/
theorem endable_oneByOne {effect : ε × Nat → Filling ρ → Filling ρ}
    (h : ∀ key, Endable effect ((load key).embed rested)) (ttl : Duration) (keys : List String) :
    Endable effect (oneByOne load ttl keys) := by
  have hget (key : String) :
      Endable effect (ReadThrough.get cache (source load) ttl key) := by
    refine .act fun s => ?_
    change Endable effect (reply load ttl key s)
    unfold reply
    split
    · exact .done _
    · refine endable_bind (.act fun _ => h key) fun a => ?_
      cases a with
      | error c => exact .done _
      | ok v => exact .act fun _ => .done _
  refine endable_bind (endable_all fun p hp => ?_) fun _ => .done _
  obtain ⟨key, -, rfl⟩ := List.mem_map.mp hp
  exact hget key

/-- What is left of the batch once it has looked at all keys. -/
def replyAll (load : Loader ρ) (ttl : Duration) (keys : List String) (s : Filling ρ) :
    Process (Filling ρ) (Answer (List (Option Value))) :=
  match s.engine.table.readEach s.instant keys with
  | .ok vs => .done (.ok vs)
  | .error _ => oneByOne load ttl keys

/-- The call begins with the look at all keys. -/
theorem turn_pool (effect : ε × Nat → Filling ρ → Filling ρ) (load : Loader ρ) (ttl : Duration)
    (keys : List String) (s : Filling ρ) :
    (pool load ttl keys s).turn effect (.go ()) =
      ⟨s, fun _ => some (replyAll load ttl keys s)⟩ := by
  have hnext : ((ReadThrough.cache cache (source load) ttl).getMulti keys).next? s =
      some (replyAll load ttl keys s, s) := rfl
  rw [Pool.turn_go effect rfl hnext]
  exact congrArg (Pool.mk s) (funext fun _ => Function.update_self ..)

/-- It is answered if all keys are live, and goes on one by one if not. -/
theorem replyAll_cases (load : Loader ρ) (ttl : Duration) (keys : List String) (s : Filling ρ) :
    (∃ vs, replyAll load ttl keys s = .done (.ok vs) ∧ Tells keys (keys.map s.read) (.ok vs)) ∨
      replyAll load ttl keys s = oneByOne load ttl keys ∧
        ∃ k ∈ keys, ∃ e, s.read k = .error e := by
  have htells : Tells keys (keys.map s.read) (s.engine.table.readEach s.instant keys) := by
    rw [Table.readEach, List.map_prod_left_eq_zip]
    exact tells_collect (List.length_map _)
  unfold replyAll
  cases hr : s.engine.table.readEach s.instant keys with
  | ok vs => exact .inl ⟨vs, rfl, hr ▸ htells⟩
  | error e =>
    refine .inr ⟨rfl, ?_⟩
    by_contra hnone
    have hlive : ∀ o ∈ keys.map s.read, ∃ v, o = .ok v := by
      rw [List.forall_mem_map]
      intro k hk
      cases ho : s.read k with
      | ok v => exact ⟨v, rfl⟩
      | error e => exact absurd ⟨k, hk, e, ho⟩ hnone
    obtain ⟨vs, hvs⟩ := (tells_ok_iff htells).mpr hlive
    exact nomatch hr.symm.trans hvs

end Reading

/-! ## What a batch read has done -/

theorem found_ok_iff : (∃ v, found outcome s₀ x = .ok v) ↔
    (∃ v, s₀.readAt x.2 x.1 = .ok v) ∨ ∃ v, outcome x.1 = .ok v := by
  unfold found loadedAs
  cases s₀.readAt x.2 x.1 with
  | ok v => simp
  | error e => cases outcome x.1 <;> simp

/-- What a batch read has done. -/
structure Filled (I : ρ → Prop) (outcome : String → Except Cause Value) (ttl : Duration)
    (keys : List String) (effect : ε → ρ → ρ) (s₀ : Filling ρ)
    (p : Pool Unit (Filling ρ) (Answer (List (Option Value)))) : Prop where
  since : Since I outcome ttl s₀ p.state
  /-- If all keys are live, their values are answered; nothing is looked at again or loaded. -/
  live : (∀ k ∈ keys, ∃ v, s₀.read k = .ok v) →
    (∃ vs, p.threads () = some (.done (.ok vs)) ∧ Tells keys (keys.map s₀.read) (.ok vs)) ∧
      p.state.looked = [] ∧ p.state.loaded = []
  /-- Single keys are looked at in order. -/
  order : p.state.looked.map Prod.fst <+: keys
  /-- If not all keys are live, then all are looked at by themselves before the call first waits,
  and none later. -/
  opened : (∃ k ∈ keys, ∃ e, s₀.read k = .error e) → ∀ q, p.threads () = some q → q.AtRest →
    p.state.looked.map Prod.fst = keys ∧
      ∀ us, (p.run (elapse effect) us).state.looked = p.state.looked
  /-- The answer tells, slot by slot, what these looks have led to. -/
  answer : (∃ k ∈ keys, ∃ e, s₀.read k = .error e) → ∀ r, p.threads () = some (.done r) →
    Tells keys (p.state.looked.map (found outcome s₀)) r ∧
      ((∃ vs, r = .ok vs) ↔ ∀ x ∈ p.state.looked,
        (∃ v, s₀.readAt x.2 x.1 = .ok v) ∨ ∃ v, outcome x.1 = .ok v)
  /-- Every key that a look has missed was loaded, and is cached if that succeeded. -/
  filled : ∀ r, p.threads () = some (.done r) → ∀ x ∈ p.state.looked, Missed s₀ x →
    x.1 ∈ p.state.loaded ∧ ∀ v, outcome x.1 = .ok v → Cached outcome ttl s₀ x.1 p.state
  /-- If no key has expired between the two looks, the answer tells of the keys as they were when
  the call began. -/
  steady : (∀ x ∈ p.state.looked, Missed s₀ x → ∃ e, s₀.read x.1 = .error e) →
    ∀ r, p.threads () = some (.done r) →
      Tells keys (keys.map fun k => found outcome s₀ (k, s₀.instant)) r ∧
        ((∃ vs, r = .ok vs) ↔ ∀ k ∈ keys, (∃ v, s₀.read k = .ok v) ∨ ∃ v, outcome k = .ok v)

section Batch

variable {effect : ε → ρ → ρ} {r : Answer (List (Option Value))}

/-- A look at which what was live still is leads to what the key was when the call began. -/
theorem found_at_start (hx : s₀.instant ≤ x.2) (h : Missed s₀ x → ∃ e, s₀.read x.1 = .error e) :
    found outcome s₀ x = found outcome s₀ (x.1, s₀.instant) :=
  found_of_iff ⟨h, fun hm => hm.later hx⟩

theorem ok_iff_of_tells (h : Tells keys (keys.map fun k => found outcome s₀ (k, s₀.instant)) r) :
    (∃ vs, r = .ok vs) ↔ ∀ k ∈ keys, (∃ v, s₀.read k = .ok v) ∨ ∃ v, outcome k = .ok v := by
  rw [tells_ok_iff h, List.forall_mem_map]
  exact forall₂_congr fun k _ => found_ok_iff

/-- What the call has looked at and come to after a schedule. -/
theorem opens_run {Z : List (String × Nat) → Answer (List (Option Value)) → Filling ρ → Prop}
    {ks : List String} (heffect : ∀ y r, I r → I (effect y r))
    {p : Pool Unit (Filling ρ) (Answer (List (Option Value)))}
    (h : ∀ q, p.threads () = some q →
      Opens (company I outcome ttl s₀) see (fun xs => Z (p.state.looked ++ xs)) ks q p.state)
    (ts : List (Turn Unit (ε × Nat))) :
    let p' := p.run (elapse effect) ts
    Onward I outcome ttl s₀ p.state p'.state ∧ ∃ seen left, seen.map Prod.fst ++ left = ks ∧
      p'.state.looked = p.state.looked ++ seen ∧
      ∀ q, p'.threads () = some q → Opens (company I outcome ttl s₀) see
        (fun xs => Z (p'.state.looked ++ xs)) left q p'.state :=
  opens_of_run (fun key s => ⟨onward_see s key, rfl⟩)
    (fun _ _ (h : (company I outcome ttl s₀).own _ _) => h.2) (own_elapse heffect) h ts

section Begun

variable {p₀ : Pool Unit (Filling ρ) (Answer (List (Option Value)))}

/-- All keys are live. -/
theorem filled_of_live (hs : Since I outcome ttl p₀.state p₀.state) (hlooked : p₀.state.looked = [])
    (heffect : ∀ y r, I r → I (effect y r)) {vs : List (Option Value)}
    (hq : p₀.threads () = some (.done (.ok vs))) (h : Tells keys (keys.map p₀.state.read) (.ok vs))
    (ts : List (Turn Unit (ε × Nat))) :
    Filled I outcome ttl keys effect p₀.state (p₀.run (elapse effect) ts) := by
  have hlive (k) (hk : k ∈ keys) : ∃ v, p₀.state.read k = .ok v :=
    (tells_ok_iff h).mp ⟨vs, rfl⟩ _ (List.mem_map_of_mem hk)
  have habsurd : ¬ ∃ k ∈ keys, ∃ e, p₀.state.read k = .error e := by
    rintro ⟨k, hk, e, he⟩
    obtain ⟨v, hv⟩ := hlive k hk
    exact nomatch he.symm.trans hv
  have hopens (q) (hq' : p₀.threads () = some q) :
      Opens (company I outcome ttl p₀.state) see (fun _ _ _ => True) [] q p₀.state := by
    obtain rfl := Option.some.inj (hq.symm.trans hq')
    exact .opened (.done fun _ _ => trivial)
  have hanswer : (p₀.run (elapse effect) ts).threads () = some (.done (.ok vs)) :=
    Pool.threads_run_done ts hq
  obtain ⟨hon, seen, left, hks, hnew, -⟩ :=
    opens_run (Z := fun _ _ _ => True) heffect hopens ts
  generalize p₀.run (elapse effect) ts = p at *
  obtain ⟨hseen, rfl⟩ := List.append_eq_nil_iff.mp hks
  obtain rfl := List.map_eq_nil_iff.mp hseen
  have hnone : p.state.looked = [] := by rw [hnew, hlooked, List.append_nil]
  have hsince := hon.since hs
  refine ⟨hsince, fun _ => ⟨⟨vs, hanswer, h⟩, hnone, ?_⟩, ?_, fun hm => absurd hm habsurd,
    fun hm => absurd hm habsurd, ?_, ?_⟩
  · refine List.eq_nil_iff_forall_not_mem.mpr fun k hk => ?_
    obtain ⟨x, hx, -⟩ := hsince.loaded k hk
    rw [hnone] at hx
    exact absurd hx List.not_mem_nil
  · rw [hnone]
    exact List.nil_prefix
  · intro r _ x hx
    rw [hnone] at hx
    exact absurd hx List.not_mem_nil
  · intro _ r hr
    obtain rfl : Except.ok vs = r := Process.done.inj (Option.some.inj (hanswer.symm.trans hr))
    have hfound : keys.map p₀.state.read =
        keys.map fun k => found outcome p₀.state (k, p₀.state.instant) := by
      refine List.map_congr_left fun k hk => ?_
      obtain ⟨v, hv⟩ := hlive k hk
      have hv' : p₀.state.readAt p₀.state.instant k = .ok v := hv
      rw [hv, found, hv']
    rw [hfound] at h
    exact ⟨h, ok_iff_of_tells h⟩

/-- Some key is not live. -/
theorem filled_of_opens (hs : Since I outcome ttl p₀.state p₀.state)
    (hlooked : p₀.state.looked = []) (heffect : ∀ y r, I r → I (effect y r))
    (hmiss : ∃ k ∈ keys, ∃ e, p₀.state.read k = .error e)
    (h : ∀ q, p₀.threads () = some q → Opens (company I outcome ttl p₀.state) see
      (Completes outcome ttl keys p₀.state) keys q p₀.state) (ts : List (Turn Unit (ε × Nat))) :
    Filled I outcome ttl keys effect p₀.state (p₀.run (elapse effect) ts) := by
  have hbegun (q) (hq : p₀.threads () = some q) : Opens (company I outcome ttl p₀.state) see
      (fun xs => Completes outcome ttl keys p₀.state (p₀.state.looked ++ xs)) keys q p₀.state := by
    rw [hlooked]
    exact h q hq
  obtain ⟨hon, seen, left, hks, hnew, hopens⟩ := opens_run heffect hbegun ts
  generalize p₀.run (elapse effect) ts = p at *
  obtain rfl : p.state.looked = seen := by rw [hnew, hlooked, List.nil_append]
  have hsince := hon.since hs
  have hdone (r) (hr : p.threads () = some (.done r)) :
      p.state.looked.map Prod.fst = keys ∧
        Tells keys (p.state.looked.map (found outcome p₀.state)) r ∧
        ∀ x ∈ p.state.looked, Missed p₀.state x → x.1 ∈ p.state.loaded ∧
          ∀ v, outcome x.1 = .ok v → Cached outcome ttl p₀.state x.1 p.state := by
    obtain ⟨rfl, hfulfils⟩ := (hopens _ hr).at_rest trivial
    obtain ⟨outcomes, hsettled, htells⟩ := fulfils_done hfulfils
    rw [List.append_nil] at hsettled hks
    obtain ⟨hfilled, hfound⟩ := (List.forall₂_and_left _ _).mp
      (hsettled.imp fun x o hx => And.intro (fun hm => And.intro (hx.loaded hm) (hx.cached hm))
        hx.answer.symm)
    obtain rfl : p.state.looked.map (found outcome p₀.state) = outcomes :=
      (congrFun₂ List.forall₂_eq_eq_eq _ _).mp (List.forall₂_map_left_iff.mpr hfound)
    exact ⟨hks, htells, hfilled⟩
  refine ⟨hsince, fun hlive => ?_, ⟨left, hks⟩, fun _ q hq hr => ?_, fun _ r hr => ?_,
    fun r hr => (hdone r hr).2.2, fun hsteady r hr => ?_⟩
  · obtain ⟨k, hk, e, he⟩ := hmiss
    obtain ⟨v, hv⟩ := hlive k hk
    exact nomatch he.symm.trans hv
  · obtain ⟨rfl, -⟩ := (hopens q hq).at_rest hr
    refine ⟨by rwa [List.append_nil] at hks, fun us => ?_⟩
    have hrested (q') (hq' : p.threads () = some q') :
        Opens (company I outcome ttl p₀.state) see
          (fun xs => Completes outcome ttl keys p₀.state (p.state.looked ++ xs)) [] q' p.state :=
      hopens q' hq'
    obtain ⟨-, seen, left, hnil, hlater, -⟩ := opens_run heffect hrested us
    obtain ⟨hseen, -⟩ := List.append_eq_nil_iff.mp hnil
    rw [hlater, List.map_eq_nil_iff.mp hseen, List.append_nil]
  · obtain ⟨-, htells, -⟩ := hdone r hr
    refine ⟨htells, (tells_ok_iff htells).trans ?_⟩
    rw [List.forall_mem_map]
    exact forall₂_congr fun x _ => found_ok_iff
  · obtain ⟨hkeys, htells, -⟩ := hdone r hr
    have hfound : p.state.looked.map (found outcome p₀.state) =
        keys.map fun k => found outcome p₀.state (k, p₀.state.instant) := by
      rw [← hkeys, List.map_map]
      exact List.map_congr_left fun x hx => found_at_start (hsince.looked x hx).1 (hsteady x hx)
    rw [hfound] at htells
    exact ⟨htells, ok_iff_of_tells htells⟩

end Begun

end Batch

/-- **A batch read through a memory engine fills it.** Let the outcome of every load be fixed while
`I` holds of the rest of the state, and let everything keep `I`. Let the call begin, and let time
pass and its steps be taken in any order.

If all keys are live when the call begins, it answers their values and loads nothing. If not, it
looks at the key of each slot by itself, at all of them before it first waits, and tells in each
slot the value that was live when the call began, if it still is at this look, or else what its load
comes to. It succeeds if the key of every slot is live at its look or can be loaded. Only keys are
loaded that such a look has missed; these are cached with `ttl` in the end if their load succeeds,
and all other entries are as they were. If what was live when the call began is live at the looks,
then the answer tells of the keys as they were when the call began.

If every wait of the loads can be ended, then the call can be brought to an answer. -/
theorem run_filled [Journal ρ] (load : Loader ρ) (outcome : String → Except Cause Value)
    (ttl : Duration) (keys : List String) (effect : ε → ρ → ρ) (now : Nat) (e : Engine) (r₀ : ρ)
    (ts : List (Turn Unit (ε × Nat))) (h₀ : I r₀)
    (hload : ∀ key, Maintains I (· = outcome key) (load key))
    (heffect : ∀ y r, I r → I (effect y r)) :
    let s₀ := fresh now e r₀
    let p := (pool load ttl keys s₀).run (elapse effect) (.go () :: ts)
    Filled I outcome ttl keys effect s₀ p ∧
      ((∀ key, Endable (elapse effect) ((load key).embed rested)) → ∀ q, p.threads () = some q →
        ∃ us r, (p.run (elapse effect) us).threads () = some (.done r)) := by
  intro s₀ p
  have hs : Since I outcome ttl s₀ s₀ := since_refl h₀ rfl rfl
  let p₀ : Pool Unit (Filling ρ) (Answer (List (Option Value))) :=
    ⟨s₀, fun _ => some (replyAll load ttl keys s₀)⟩
  have hp : p = p₀.run (elapse effect) ts :=
    congrArg (·.run (elapse effect) ts) (turn_pool (elapse effect) load ttl keys s₀)
  have hthread (q) (hq : p₀.threads () = some q) : replyAll load ttl keys s₀ = q :=
    Option.some.inj hq
  have hcases := replyAll_cases load ttl keys s₀
  rw [hp]
  refine ⟨?_, fun hends q hq => ?_⟩
  · change Filled I outcome ttl keys effect p₀.state _
    rcases hcases with ⟨vs, hvs, htells⟩ | ⟨heach, hmiss⟩
    · exact filled_of_live hs rfl heffect (congrArg some hvs) htells ts
    · refine filled_of_opens hs rfl heffect hmiss (fun q hq => ?_) ts
      rw [← hthread q hq, heach]
      exact opens_oneByOne hload hs
  · have hend (q) (hq : p₀.threads () = some q) : Endable (elapse effect) q := by
      rw [← hthread q hq]
      rcases hcases with ⟨vs, hvs, -⟩ | ⟨heach, -⟩
      · rw [hvs]
        exact .done _
      · rw [heach]
        exact endable_oneByOne hends ttl keys
    exact exists_ending (endable_run hend ts q hq) hq

/-- Loads that take until a time of their own, and then come to what is fixed for their key. -/
def latent (until' : String → Nat) (outcome : String → Except Cause Value) : Loader Session.State :=
  fun key => .wait (.time (until' key)) id fun _ => .done (outcome key)

theorem maintains_latent (until' : String → Nat) (outcome : String → Except Cause Value)
    (key : String) : Maintains (fun _ => True) (· = outcome key) (latent until' outcome key) :=
  .wait (fun _ _ => trivial) fun _ _ => .done rfl

theorem endable_latent (until' : String → Nat) (outcome : String → Except Cause Value)
    (key : String) :
    Endable (elapse fun (_ : Unit) r => r) ((latent until' outcome key).embed rested) := by
  refine .wait (fun s => ⟨[((), until' key * nanosPerMilli)], ?_⟩) fun _ => .done _
  refine decide_eq_true ((Nat.le_div_iff_mul_le (by decide)).mpr ?_)
  exact Nat.le_add_left _ _

/-- One key is live and expires while the call waits for its loads, one is loaded for two slots, and
one cannot be loaded. The loads end at different times. -/
theorem run_filled_duplicates :
    let outcome : String → Except Cause Value := fun key =>
      if key = "b" then .ok (.bool false) else .error (.ofText "no row")
    let load := latent (fun key => if key = "b" then 30 else 10) outcome
    let keys := ["b", "a", "b", "c"]
    let e : Engine :=
      { Engine.empty with table := Table.empty.put 0 "a" (.bool true) (.ofNanos 5000000) }
    let ts : List (Turn Unit (Unit × Nat)) := List.replicate 12 (.go ()) ++
      .outside ((), 10000000) :: List.replicate 2 (.go ()) ++
      .outside ((), 20000000) :: List.replicate 4 (.go ())
    let p := (pool load .zero keys (fresh 0 e (default : Session.State))).run
      (elapse fun _ r => r) (.go () :: ts)
    (∀ key, Maintains (fun _ => True) (· = outcome key) (load key)) ∧
      (∀ key, Endable (elapse fun (_ : Unit) r => r) ((load key).embed rested)) ∧
      Filled (fun _ => True) outcome .zero keys (fun (_ : Unit) r => r) (fresh 0 e default) p ∧
      p.threads () = some (.done (.error (.multiGetFailed
        [some (.bool false), some (.bool true), some (.bool false), none]
        ["key [" ++ "c" ++ "] error: " ++
          (CacheError.loadFailed "c" (.ofText "no row")).message]))) ∧
      p.state.looked = [("b", 0), ("a", 0), ("b", 0), ("c", 0)] ∧
      p.state.loaded = ["b", "b", "c"] := by
  have run (now : Nat) (e : Engine) (ts : List (Turn Unit (Unit × Nat))) (keys : List String)
      (until' : String → Nat) (outcome : String → Except Cause Value) :=
    run_filled (latent until' outcome) outcome .zero keys (fun (_ : Unit) r => r) now e default ts
      trivial (maintains_latent until' outcome) fun _ _ _ => trivial
  exact ⟨maintains_latent _ _, endable_latent _ _, (run _ _ _ _ _ _).1, rfl, rfl, rfl⟩

/-- A key that is live when the call begins expires after the look at all keys and before the look
at this one: it is loaded, and the loaded value is answered. -/
theorem live_key_loaded :
    let load : Loader Session.State := latent (fun _ => 0) fun _ => .ok (.bool false)
    let e : Engine := { Engine.empty with table := Table.empty.put 0 "a" (.bool true) (.ofNanos 5) }
    let s₀ : Filling Session.State := fresh 0 e default
    let p := (pool load .zero ["a", "b"] s₀).run (elapse fun (_ : Unit) r => r)
      (.go () :: .outside ((), 10) :: List.replicate 10 (.go ()))
    s₀.read "a" = .ok (.bool true) ∧
      p.threads () = some (.done (.ok [some (.bool false), some (.bool false)])) ∧
        p.state.loaded = ["a", "b"] := ⟨rfl, rfl, rfl⟩

end Filling
end LayeredCache
