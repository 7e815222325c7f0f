import Mathlib.Logic.Function.Basic
import LayeredCache.Filter.Bits

/-!
# A bit filter shared by clients

Any number of clients add keys to one filter, each by setting one bit after the other, so that
their adds are interleaved; now and then one of them clears the filter word by word while no other
is at work. The words are what the clients really read and write.

Results:
* `orWord_bit`, `test_eq`: setting and testing a bit, by the word that holds it.
* `run_kept`: what a filter holds after any turns of its clients.
-/

namespace LayeredCache.Filter

namespace Bits

/-! ## Bits and words -/

def IsSet (f : Bits) (i : Nat) : Prop := f.array.getLsbD i = true

/-- The word of that index. -/
def word (f : Bits) (j : Nat) : BitVec 64 := f.array.extractLsb' (64 * j) 64

/-- Sets the bits of a mask in a word. -/
def orWord (f : Bits) (j : Nat) (mask : BitVec 64) : Bits :=
  { f with array := f.array ||| mask.setWidth _ <<< (64 * j) }

/-- Clears a word. -/
def clearWord (f : Bits) (j : Nat) : Bits :=
  { f with array := f.array &&& ~~~((BitVec.allOnes 64).setWidth _ <<< (64 * j)) }

theorem IsSet.lt {f : Bits} {i : Nat} (h : f.IsSet i) : i < 64 * f.words :=
  BitVec.lt_of_getLsbD h

theorem isSet_set {f : Bits} {i j : Nat} (hi : i < 64 * f.words) :
    (f.set i).IsSet j ↔ f.IsSet j ∨ j = i := by
  unfold IsSet
  rw [getLsbD_set]
  simp only [Bool.or_eq_true, Bool.and_eq_true, decide_eq_true_eq]
  constructor
  · rintro (h | ⟨-, h⟩)
    · exact .inl h
    · exact .inr h
  · rintro (h | rfl)
    · exact .inl h
    · exact .inr ⟨hi, rfl⟩

/-- The bits of one word among `n` bits. -/
theorem getLsbD_wordMask {n i : Nat} (j : Nat) (hi : i < n) :
    ((BitVec.allOnes 64).setWidth n <<< (64 * j)).getLsbD i = true ↔ i / 64 = j := by
  simp only [BitVec.getLsbD_shiftLeft, BitVec.getLsbD_setWidth, BitVec.getLsbD_allOnes,
    Bool.and_eq_true, Bool.not_eq_true', decide_eq_true_eq, decide_eq_false_iff_not]
  omega

theorem isSet_clearWord {f : Bits} {j i : Nat} :
    (f.clearWord j).IsSet i ↔ f.IsSet i ∧ i / 64 ≠ j := by
  unfold IsSet clearWord
  by_cases hi : i < 64 * f.words
  · rw [BitVec.getLsbD_and, BitVec.getLsbD_not, Bool.and_eq_true, Bool.and_eq_true,
      Bool.not_eq_true', ← Bool.not_eq_true, getLsbD_wordMask j hi]
    simp [hi]
  · have hi := Nat.le_of_not_lt hi
    rw [BitVec.getLsbD_of_ge _ _ hi, BitVec.getLsbD_of_ge _ _ hi]
    simp

theorem IsSet.orWord {f : Bits} {i : Nat} (h : f.IsSet i) (j : Nat) (mask : BitVec 64) :
    (f.orWord j mask).IsSet i := by
  unfold IsSet at h ⊢
  unfold Bits.orWord
  rw [BitVec.getLsbD_or, h, Bool.true_or]

theorem not_isSet_empty (size : Size) (i : Nat) : ¬ (empty size).IsSet i := by
  simp [IsSet, empty]

/-- A filter is its shape and the bits that are set. -/
theorem eq_of_isSet {f g : Bits} (hw : f.words = g.words) (hh : f.hashes = g.hashes)
    (h : ∀ i, f.IsSet i ↔ g.IsSet i) : f = g := by
  obtain ⟨words, hashes, a⟩ := f
  obtain ⟨_, _, b⟩ := g
  obtain rfl : words = _ := hw
  obtain rfl : hashes = _ := hh
  have hab : a = b := BitVec.eq_of_getLsbD_eq fun i _ => Bool.eq_iff_iff.mpr (h i)
  rw [hab]

theorem reset_eq_empty {f : Bits} {size : Size} (hw : f.words = size.words)
    (hh : f.hashes = size.hashes) : f.reset = empty size := by
  obtain ⟨words, hashes, a⟩ := f
  obtain rfl : words = _ := hw
  obtain rfl : hashes = _ := hh
  rfl

/-- **Setting a bit** is setting its mask in its word. -/
theorem orWord_bit (f : Bits) (i : Nat) :
    f.orWord (i / 64) (BitVec.twoPow 64 (i % 64)) = f.set i := by
  refine eq_of_isSet rfl rfl fun j => ?_
  unfold IsSet
  rw [getLsbD_set]
  unfold orWord
  simp only [BitVec.getLsbD_or, BitVec.getLsbD_shiftLeft, BitVec.getLsbD_setWidth,
    BitVec.getLsbD_twoPow]
  grind

theorem getLsbD_word (f : Bits) (i : Nat) :
    (f.word (i / 64)).getLsbD (i % 64) = f.array.getLsbD i := by
  unfold word
  rw [BitVec.getLsbD_extractLsb']
  have hm : i % 64 < 64 := Nat.mod_lt _ (by decide)
  rw [Nat.div_add_mod]
  simp [hm]

/-- **Testing a key** is asking each of its words for the mask. -/
theorem test_eq (h : Hashing) (key : String) (f : Bits) :
    f.test h key = (f.positionsOf h key).all fun i =>
      f.word (i / 64) &&& BitVec.twoPow 64 (i % 64) != 0 := by
  unfold test
  congr 1
  funext i
  have hm : i % 64 < 64 := Nat.mod_lt _ (by decide)
  rw [← getLsbD_word, BitVec.and_twoPow]
  cases hb : (f.word (i / 64)).getLsbD (i % 64) with
  | false => rfl
  | true =>
    rw [if_pos rfl, eq_comm, bne_iff_ne]
    intro h
    have hbit := congrArg (fun x : BitVec 64 => x.getLsbD (i % 64)) h
    simp [hm] at hbit

end Bits

/-! ## Clients -/

/-- What a client is doing. -/
inductive Activity where
  | idle
  /-- Adding the key; the bits at these positions are still to be set. -/
  | adding (key : String) (left : List Nat)
  /-- Clearing the filter; these words are still to be cleared. -/
  | resetting (left : List Nat)
  deriving DecidableEq

namespace Activity

def isResetting : Activity → Bool
  | .resetting _ => true
  | _ => false

/-- The words that are still to be written. -/
def words : Activity → List Nat
  | .idle => []
  | .adding _ left => left.map (· / 64)
  | .resetting left => left

end Activity

/-- A filter with its clients. -/
structure Shared (n : Nat) where
  filter : Bits
  client : Fin n → Activity
  /-- The keys whose adds have ended since the last reset began. -/
  added : List String

/-- A client begins to add a key, begins to reset the filter, or goes on with what it is doing. -/
inductive Turn (n : Nat) where
  | add (i : Fin n) (key : String)
  | reset (i : Fin n)
  | go (i : Fin n)

namespace Shared

variable {n : Nat}

/-- A filter that was just built. -/
def fresh (n : Nat) (size : Size) : Shared n := ⟨Bits.empty size, fun _ => .idle, []⟩

/-- A client does something else, with this filter and these added keys. -/
def become (s : Shared n) (i : Fin n) (a : Activity) (f : Bits) (ks : List String) : Shared n :=
  ⟨f, Function.update s.client i a, ks⟩

/-- A client begins to add a key, unless the filter is being reset. -/
def beginAdd (h : Hashing) (s : Shared n) (i : Fin n) (key : String) : Shared n :=
  if s.client i = .idle ∧ ∀ j, (s.client j).isResetting = false then
    s.become i (.adding key (s.filter.positionsOf h key)) s.filter s.added
  else s

/-- A client begins to reset the filter, unless someone is in the middle of a call. -/
def beginReset (s : Shared n) (i : Fin n) : Shared n :=
  if ∀ j, s.client j = .idle then
    s.become i (.resetting (List.range s.filter.words)) s.filter []
  else s

/-- One write of a client, or the end of its call. -/
def go (s : Shared n) (i : Fin n) : Shared n :=
  match s.client i with
  | .idle => s
  | .adding key [] => s.become i .idle s.filter (key :: s.added)
  | .adding key (p :: left) =>
    s.become i (.adding key left) (s.filter.orWord (p / 64) (BitVec.twoPow 64 (p % 64))) s.added
  | .resetting [] => s.become i .idle s.filter s.added
  | .resetting (w :: left) => s.become i (.resetting left) (s.filter.clearWord w) s.added

def turn (h : Hashing) (s : Shared n) : Turn n → Shared n
  | .add i key => s.beginAdd h i key
  | .reset i => s.beginReset i
  | .go i => s.go i

def run (h : Hashing) (s : Shared n) (turns : List (Turn n)) : Shared n := turns.foldl (turn h) s

/-- No client is in the middle of a call. -/
def Quiet (s : Shared n) : Prop := ∀ i, s.client i = .idle

end Shared

/-! ## What the bits stand for -/

/-- The positions of a key in a filter of this size. -/
def marks (size : Size) (h : Hashing) (key : String) : List Nat :=
  positions (64 * size.words) size.hashes (h.first key) (h.second key)

theorem mem_marks_lt {size : Size} {h : Hashing} {key : String} {p : Nat} (hw : 0 < size.words)
    (hp : p ∈ marks size h key) : p < 64 * size.words := by
  obtain ⟨i, -, rfl⟩ := List.mem_map.mp hp
  exact Bits.position_lt (by omega) _ _ _

/-- How far a client has come, as the filter shows it. -/
def Activity.Done (size : Size) (h : Hashing) (f : Bits) : Activity → Prop
  | .idle => True
  | .adding key left =>
    (∀ p ∈ left, p ∈ marks size h key) ∧ ∀ p ∈ marks size h key, p ∈ left ∨ f.IsSet p
  | .resetting left => ∀ w ∈ left, w < size.words

/-- The bit may be set because of what the client is doing. -/
def Activity.Explains (size : Size) (h : Hashing) (p : Nat) : Activity → Prop
  | .idle => False
  | .adding key _ => p ∈ marks size h key
  | .resetting left => p / 64 ∈ left

theorem Activity.Done.mono {size : Size} {h : Hashing} {f g : Bits} {a : Activity}
    (ha : a.Done size h f) (hg : ∀ p, f.IsSet p → g.IsSet p) : a.Done size h g := by
  cases a with
  | adding key left => exact ⟨ha.1, fun p hp => (ha.2 p hp).imp_right (hg p)⟩
  | _ => exact ha

namespace Shared

variable {n : Nat} {size : Size} {h : Hashing} {s : Shared n}

/-- The bits of every added key are set, and no bit is set but for a key that was added or is being
added, unless it waits to be cleared. -/
structure Kept (size : Size) (h : Hashing) (s : Shared n) : Prop where
  words : s.filter.words = size.words
  hashes : s.filter.hashes = size.hashes
  client : ∀ i, (s.client i).Done size h s.filter
  added : ∀ key ∈ s.added, ∀ p ∈ marks size h key, s.filter.IsSet p
  explained : ∀ p, s.filter.IsSet p →
    (∃ key ∈ s.added, p ∈ marks size h key) ∨ ∃ i, (s.client i).Explains size h p
  alone : ∀ i, (s.client i).isResetting = true → s.added = [] ∧ ∀ j ≠ i, s.client j = .idle

theorem Kept.positionsOf (hs : Kept size h s) (key : String) :
    s.filter.positionsOf h key = marks size h key := by
  unfold Bits.positionsOf marks
  rw [hs.words, hs.hashes]

theorem kept_fresh : Kept size h (fresh n size) where
  words := rfl
  hashes := rfl
  client _ := trivial
  added _ hk := nomatch hk
  explained p hp := absurd hp (Bits.not_isSet_empty size p)
  alone _ hr := nomatch hr

/-- Nobody resets while a client adds. -/
theorem Kept.not_isResetting (hs : Kept size h s) {i : Fin n} {key : String} {left : List Nat}
    (hi : s.client i = .adding key left) (j : Fin n) : (s.client j).isResetting = false := by
  cases hj : (s.client j).isResetting with
  | false => rfl
  | true =>
    have hne : i ≠ j := by
      rintro rfl
      rw [hi] at hj
      cases hj
    rw [(hs.alone j hj).2 i hne] at hi
    cases hi

/-- A client that adds a key writes bits of that key only: the filter grows, and what holds of the
others still holds. -/
theorem kept_write (hs : Kept size h s) {i : Fin n} {a : Activity} {f : Bits} {ks : List String}
    (hr : ∀ j, (s.client j).isResetting = false) (hw : f.words = size.words)
    (hh : f.hashes = size.hashes) (hg : ∀ p, s.filter.IsSet p → f.IsSet p)
    (ha : a.Done size h f) (har : a.isResetting = false)
    (hks : ∀ key ∈ ks, ∀ p ∈ marks size h key, f.IsSet p) (hsub : ∀ key ∈ s.added, key ∈ ks)
    (he : ∀ p, f.IsSet p → s.filter.IsSet p ∧ ¬ (s.client i).Explains size h p ∨
      (∃ key ∈ ks, p ∈ marks size h key) ∨ a.Explains size h p) :
    Kept size h (s.become i a f ks) where
  words := hw
  hashes := hh
  client j := by
    by_cases hj : j = i
    · subst hj
      simpa [become] using ha
    · simpa [become, Function.update_of_ne hj] using (hs.client j).mono hg
  added := hks
  explained p hp := by
    rcases he p hp with ⟨hp, hi⟩ | hk | ha
    · rcases hs.explained p hp with ⟨key, hk, hm⟩ | ⟨j, hj⟩
      · exact .inl ⟨key, hsub key hk, hm⟩
      · have hne : j ≠ i := by
          rintro rfl
          exact hi hj
        exact .inr ⟨j, by simpa [become, Function.update_of_ne hne] using hj⟩
    · exact .inl hk
    · exact .inr ⟨i, by simpa [become] using ha⟩
  alone j hj := by
    by_cases hij : j = i
    · subst hij
      simp [become, har] at hj
    · simp [become, Function.update_of_ne hij, hr j] at hj

theorem kept_add (hs : Kept size h s) (i : Fin n) (key : String) :
    Kept size h (s.beginAdd h i key) := by
  unfold beginAdd
  split
  · rename_i hi
    refine kept_write hs hi.2 hs.words hs.hashes (fun _ hp => hp) ?_ rfl hs.added (fun _ hk => hk)
      fun p hp => .inl ⟨hp, by rw [hi.1]; exact id⟩
    rw [hs.positionsOf]
    exact ⟨fun _ hp => hp, fun _ hp => .inl hp⟩
  · exact hs

theorem kept_set (hw : 0 < size.words) (hs : Kept size h s) {i : Fin n} {key : String} {p : Nat}
    {left : List Nat} (hi : s.client i = .adding key (p :: left)) : Kept size h (s.go i) := by
  have hdone := hs.client i
  rw [hi] at hdone
  have hm : p ∈ marks size h key := hdone.1 p List.mem_cons_self
  have hp : p < 64 * s.filter.words := hs.words ▸ mem_marks_lt hw hm
  unfold go
  simp only [hi, Bits.orWord_bit]
  refine kept_write hs (hs.not_isResetting hi) hs.words hs.hashes
    (fun q hq => (Bits.isSet_set hp).mpr (.inl hq)) ?_ rfl
    (fun k hk q hq => (Bits.isSet_set hp).mpr (.inl (hs.added k hk q hq))) (fun _ hk => hk) ?_
  · refine ⟨fun q hq => hdone.1 q (List.mem_cons_of_mem _ hq), fun q hq => ?_⟩
    rw [Bits.isSet_set hp]
    rcases hdone.2 q hq with hq | hq
    · rcases List.mem_cons.mp hq with rfl | hq
      · exact .inr (.inr rfl)
      · exact .inl hq
    · exact .inr (.inl hq)
  · intro q hq
    by_cases hk : q ∈ marks size h key
    · exact .inr (.inr hk)
    · rcases (Bits.isSet_set hp).mp hq with hq | rfl
      · exact .inl ⟨hq, by rw [hi]; exact hk⟩
      · exact absurd hm hk

theorem kept_addEnd (hs : Kept size h s) {i : Fin n} {key : String}
    (hi : s.client i = .adding key []) : Kept size h (s.go i) := by
  have hdone := hs.client i
  rw [hi] at hdone
  have hset : ∀ p ∈ marks size h key, s.filter.IsSet p := fun p hp =>
    (hdone.2 p hp).resolve_left List.not_mem_nil
  unfold go
  simp only [hi]
  refine kept_write hs (hs.not_isResetting hi) hs.words hs.hashes (fun _ hp => hp) trivial rfl ?_
    (fun _ hk => List.mem_cons_of_mem _ hk) ?_
  · intro k hk
    rcases List.mem_cons.mp hk with rfl | hk
    · exact hset
    · exact hs.added k hk
  · intro p hp
    by_cases hk : p ∈ marks size h key
    · exact .inr (.inl ⟨key, List.mem_cons_self, hk⟩)
    · exact .inl ⟨hp, by rw [hi]; exact hk⟩

/-- A client that resets the filter is alone with it. -/
theorem kept_alone {i : Fin n} {left : List Nat} {f : Bits} (hw : f.words = size.words)
    (hh : f.hashes = size.hashes) (hother : ∀ j ≠ i, s.client j = .idle)
    (hl : ∀ w ∈ left, w < size.words) (he : ∀ p, f.IsSet p → p / 64 ∈ left) :
    Kept size h (s.become i (.resetting left) f []) where
  words := hw
  hashes := hh
  client j := by
    by_cases hj : j = i
    · subst hj
      simpa [become, Activity.Done] using hl
    · simp [become, Function.update_of_ne hj, hother j hj, Activity.Done]
  added _ hk := nomatch hk
  explained p hp := .inr ⟨i, by simpa [become, Activity.Explains] using he p hp⟩
  alone j hj := by
    have hij : j = i := by
      by_contra hne
      simp [become, Function.update_of_ne hne, hother j hne, Activity.isResetting] at hj
    subst hij
    exact ⟨rfl, fun k hk => by simpa [become, Function.update_of_ne hk] using hother k hk⟩

theorem kept_reset (hs : Kept size h s) (i : Fin n) : Kept size h (s.beginReset i) := by
  unfold beginReset
  split
  · rename_i hq
    refine kept_alone hs.words hs.hashes (fun j _ => hq j) (fun w hw => ?_) fun p hp => ?_
    · rw [List.mem_range, hs.words] at hw
      exact hw
    · have hlt := hp.lt
      rw [List.mem_range]
      omega
  · exact hs

/-- While a client resets the filter, only the words that are left hold bits. -/
theorem Kept.left_of_isSet (hs : Kept size h s) {i : Fin n} {left : List Nat}
    (hi : s.client i = .resetting left) {p : Nat} (hp : s.filter.IsSet p) : p / 64 ∈ left := by
  obtain ⟨hadded, hother⟩ := hs.alone i (by rw [hi]; rfl)
  rcases hs.explained p hp with ⟨key, hk, -⟩ | ⟨j, hj⟩
  · rw [hadded] at hk
    cases hk
  · by_cases hij : j = i
    · subst hij
      rwa [hi] at hj
    · rw [hother j hij] at hj
      cases hj

theorem kept_clear (hs : Kept size h s) {i : Fin n} {w : Nat} {left : List Nat}
    (hi : s.client i = .resetting (w :: left)) : Kept size h (s.go i) := by
  obtain ⟨hadded, hother⟩ := hs.alone i (by rw [hi]; rfl)
  have hdone := hs.client i
  rw [hi] at hdone
  unfold go
  simp only [hi, hadded]
  refine kept_alone hs.words hs.hashes hother (fun v hv => hdone v (List.mem_cons_of_mem _ hv)) ?_
  intro p hp
  obtain ⟨hp, hne⟩ := Bits.isSet_clearWord.mp hp
  exact (List.mem_cons.mp (hs.left_of_isSet hi hp)).resolve_left hne

/-- **After a reset** the filter and its clients are as they were at the beginning. -/
theorem go_reset (hs : Kept size h s) {i : Fin n} (hi : s.client i = .resetting []) :
    s.go i = fresh n size := by
  obtain ⟨hadded, hother⟩ := hs.alone i (by rw [hi]; rfl)
  have hfilter : s.filter = Bits.empty size := by
    refine Bits.eq_of_isSet hs.words hs.hashes fun p => ?_
    exact ⟨fun hp => absurd (hs.left_of_isSet hi hp) List.not_mem_nil,
      fun hp => absurd hp (Bits.not_isSet_empty size p)⟩
  have hclient : Function.update s.client i .idle = fun _ => .idle := by
    funext j
    by_cases hij : j = i
    · rw [hij, Function.update_self]
    · rw [Function.update_of_ne hij, hother j hij]
  unfold go
  simp only [hi]
  unfold become fresh
  rw [hfilter, hclient, hadded]

theorem kept_go (hw : 0 < size.words) (hs : Kept size h s) (i : Fin n) :
    Kept size h (s.go i) := by
  cases hi : s.client i with
  | idle =>
    unfold go
    rwa [hi]
  | adding key left =>
    cases left with
    | nil => exact kept_addEnd hs hi
    | cons p left => exact kept_set hw hs hi
  | resetting left =>
    cases left with
    | nil => exact go_reset hs hi ▸ kept_fresh
    | cons w left => exact kept_clear hs hi

/-- What every turn keeps. -/
theorem kept_turn (hw : 0 < size.words) (hs : Kept size h s) (t : Turn n) :
    Kept size h (s.turn h t) := by
  cases t with
  | add i key => exact kept_add hs i key
  | reset i => exact kept_reset hs i
  | go i => exact kept_go hw hs i

/-- What every run keeps. -/
theorem kept_run (hw : 0 < size.words) (hs : Kept size h s) (turns : List (Turn n)) :
    Kept size h (s.run h turns) := by
  induction turns generalizing s with
  | nil => exact hs
  | cons t turns ih => exact ih (kept_turn hw hs t)

/-! ## Between resets -/

/-- No bit is lost, and nobody resets the filter afterwards. -/
structure Grows (s s' : Shared n) : Prop where
  bits : ∀ p, s.filter.IsSet p → s'.filter.IsSet p
  calm : ∀ j, (s'.client j).isResetting = false

theorem grows_become (hr : ∀ j, (s.client j).isResetting = false) {i : Fin n} {a : Activity}
    {f : Bits} (ks : List String) (hf : ∀ p, s.filter.IsSet p → f.IsSet p)
    (ha : a.isResetting = false) : Grows s (s.become i a f ks) where
  bits := hf
  calm j := by
    by_cases hj : j = i
    · subst hj
      simpa [become] using ha
    · simpa [become, Function.update_of_ne hj] using hr j

theorem grows_turn {t : Turn n} (hr : ∀ j, (s.client j).isResetting = false)
    (ht : ∀ i, t ≠ .reset i) : Grows s (s.turn h t) := by
  have same : Grows s s := ⟨fun _ hp => hp, hr⟩
  cases t with
  | add i key =>
    change Grows s (s.beginAdd h i key)
    unfold beginAdd
    split
    · exact grows_become hr _ (fun _ hp => hp) rfl
    · exact same
  | reset i => exact absurd rfl (ht i)
  | go i =>
    change Grows s (s.go i)
    unfold go
    split
    · exact same
    · exact grows_become hr _ (fun _ hp => hp) rfl
    · exact grows_become hr _ (fun _ hp => hp.orWord _ _) rfl
    · exact grows_become hr _ (fun _ hp => hp) rfl
    · rename_i he
      have hi := hr i
      rw [he] at hi
      cases hi

/-- While no reset begins or goes on, bits are only set. -/
theorem grows_run {turns : List (Turn n)} (hr : ∀ j, (s.client j).isResetting = false)
    (ht : ∀ t ∈ turns, ∀ i, t ≠ .reset i) {p : Nat} (hp : s.filter.IsSet p) :
    (s.run h turns).filter.IsSet p := by
  induction turns generalizing s with
  | nil => exact hp
  | cons t turns ih =>
    have hgrows : Grows s (s.turn h t) := grows_turn hr (ht t List.mem_cons_self)
    exact ih hgrows.calm (fun u hu => ht u (List.mem_cons_of_mem _ hu)) (hgrows.bits p hp)

/-! ## What is left in the end -/

theorem Kept.isSet_iff (hs : Kept size h s) (hq : s.Quiet) (p : Nat) :
    s.filter.IsSet p ↔ ∃ key ∈ s.added, p ∈ marks size h key := by
  constructor
  · intro hp
    refine (hs.explained p hp).resolve_right ?_
    rintro ⟨i, hi⟩
    rw [hq i] at hi
    exact hi
  · rintro ⟨key, hk, hp⟩
    exact hs.added key hk p hp

theorem test_of_isSet {key : String} (hs : Kept size h s)
    (hset : ∀ p ∈ marks size h key, s.filter.IsSet p) : s.filter.test h key = true := by
  unfold Bits.test
  rw [hs.positionsOf, List.all_eq_true]
  exact hset

theorem test_fresh (hh : 0 < size.hashes) (key : String) :
    (Bits.empty size).test h key = false := by
  unfold Bits.test
  rw [List.all_eq_false]
  have hm : position (64 * size.words) (h.first key) (h.second key) 0 ∈ marks size h key :=
    List.mem_map.mpr ⟨0, List.mem_range.mpr hh, rfl⟩
  exact ⟨_, hm, Bits.not_isSet_empty size _⟩

theorem Kept.word_lt (hw : 0 < size.words) (hs : Kept size h s) {i : Fin n} {w : Nat}
    (hm : w ∈ (s.client i).words) : w < size.words := by
  have hdone := hs.client i
  cases hi : s.client i with
  | idle =>
    rw [hi] at hm
    cases hm
  | adding key left =>
    rw [hi] at hm hdone
    obtain ⟨p, hp, rfl⟩ := List.mem_map.mp hm
    have hlt := mem_marks_lt hw (hdone.1 p hp)
    omega
  | resetting left =>
    rw [hi] at hm hdone
    exact hdone w hm

/-- A reset that was begun ends when its client has gone on for long enough. -/
theorem run_reset {i : Fin n} {left : List Nat} (hw : 0 < size.words) (hs : Kept size h s)
    (hi : s.client i = .resetting left) :
    s.run h (List.replicate (left.length + 1) (.go i)) = fresh n size := by
  induction left generalizing s with
  | nil => exact go_reset hs hi
  | cons w left ih =>
    refine ih (s := s.go i) (kept_go hw hs i) ?_
    unfold go
    simp [hi, become]

end Shared

/-! ## Adds one after the other -/

namespace Bits

variable {size : Size} {h : Hashing} {f : Bits} {key : String}

theorem isSet_add (hw : 0 < size.words) (hf : f.words = size.words) (hh : f.hashes = size.hashes)
    {p : Nat} : (f.add h key).IsSet p ↔ f.IsSet p ∨ p ∈ marks size h key := by
  have hm : f.positionsOf h key = marks size h key := by
    unfold positionsOf marks
    rw [hf, hh]
  unfold IsSet add
  rw [getLsbD_foldl_set, hm]
  simp only [Bool.or_eq_true, Bool.and_eq_true, decide_eq_true_eq]
  constructor
  · rintro (hp | ⟨-, hp⟩)
    · exact .inl hp
    · exact .inr hp
  · rintro (hp | hp)
    · exact .inl hp
    · exact .inr ⟨hf ▸ mem_marks_lt hw hp, hp⟩

/-- The filter with these keys added one after the other. -/
def addAll (h : Hashing) (keys : List String) (f : Bits) : Bits :=
  keys.foldl (fun f key => f.add h key) f

theorem addAll_shape (keys : List String) (f : Bits) :
    (f.addAll h keys).words = f.words ∧ (f.addAll h keys).hashes = f.hashes := by
  induction keys generalizing f with
  | nil => exact ⟨rfl, rfl⟩
  | cons key keys ih =>
    obtain ⟨hwords, hhashes⟩ := foldl_set_words (f.positionsOf h key) f
    obtain ⟨iw, ih⟩ := ih (f.add h key)
    exact ⟨iw.trans hwords, ih.trans hhashes⟩

theorem isSet_addAll (hw : 0 < size.words) {keys : List String} (hf : f.words = size.words)
    (hh : f.hashes = size.hashes) {p : Nat} :
    (f.addAll h keys).IsSet p ↔ f.IsSet p ∨ ∃ key ∈ keys, p ∈ marks size h key := by
  induction keys generalizing f with
  | nil => simp [addAll]
  | cons key keys ih =>
    obtain ⟨hwords, hhashes⟩ := foldl_set_words (f.positionsOf h key) f
    change ((f.add h key).addAll h keys).IsSet p ↔ _
    rw [ih (f := f.add h key) (hwords.trans hf) (hhashes.trans hh), isSet_add hw hf hh]
    simp [or_assoc]

end Bits

namespace Shared

variable {n : Nat}

/-- **What a shared filter holds** after any turns of any number of clients. Every key whose add has
ended since the last reset passes the test. While no client is in the middle of a call, the filter
is the one to which these keys were added one after the other, in any order and any number of
times. Until the next reset, bits are only set. A reset, word by word, clears every bit and leads
back to the filter that was just built, which no key passes. Every word that is read or written is
one of the filter's. -/
theorem run_kept (size : Size) (h : Hashing) (hw : 0 < size.words) (hh : 0 < size.hashes)
    (turns : List (Turn n)) :
    let s := (fresh n size).run h turns
    (∀ key ∈ s.added, s.filter.test h key = true) ∧
    (s.Quiet → ∀ keys, (∀ key, key ∈ keys ↔ key ∈ s.added) →
      s.filter = (Bits.empty size).addAll h keys) ∧
    (∀ more, (∀ i, (s.client i).isResetting = false) → (∀ t ∈ more, ∀ i, t ≠ .reset i) →
      ∀ p, s.filter.IsSet p → (s.run h more).filter.IsSet p) ∧
    (∀ i left, s.client i = .resetting left →
      s.run h (List.replicate (left.length + 1) (.go i)) = fresh n size) ∧
    s.filter.reset = (fresh n size).filter ∧
    (∀ key, (fresh n size).filter.test h key = false) ∧
    s.filter.words = size.words ∧
    (∀ key, ∀ p ∈ s.filter.positionsOf h key, p / 64 < size.words) ∧
    ∀ i, ∀ w ∈ (s.client i).words, w < size.words := by
  intro s
  have hs : Kept size h s := kept_run hw kept_fresh turns
  refine ⟨fun key hk => test_of_isSet hs (hs.added key hk), fun hq keys hkeys => ?_,
    fun more hr ht p => grows_run hr ht, fun i left hi => run_reset hw hs hi,
    Bits.reset_eq_empty hs.words hs.hashes, fun key => test_fresh hh key, hs.words,
    fun key p hp => ?_, fun i w => hs.word_lt hw⟩
  · obtain ⟨hwords, hhashes⟩ := Bits.addAll_shape (h := h) keys (Bits.empty size)
    refine Bits.eq_of_isSet (hs.words.trans hwords.symm) (hs.hashes.trans hhashes.symm) fun p => ?_
    rw [hs.isSet_iff hq, Bits.isSet_addAll hw rfl rfl]
    simp [hkeys, Bits.not_isSet_empty]
  · rw [hs.positionsOf] at hp
    have hlt := mem_marks_lt hw hp
    omega

/-- Two clients add a key each, their writes interleaved; then the first one begins a reset. -/
def interleaved : List (Turn 2) :=
  [.add 0 "a", .add 1 "b", .go 0, .go 1, .go 1, .go 0, .go 0, .go 1]

theorem run_kept_interleaved :
    (0 < 1 ∧ 0 < 2) ∧
    let s := (fresh 2 ⟨1, 2⟩).run .standard interleaved
    s.added = ["b", "a"] ∧ s.filter.test .standard "a" = true ∧
      s.filter = (Bits.empty ⟨1, 2⟩).addAll .standard ["a", "b", "a"] ∧
      s.run .standard [.reset 0, .go 0, .go 0] = fresh 2 ⟨1, 2⟩ := by
  have hadded : ((fresh 2 ⟨1, 2⟩).run .standard interleaved).added = ["b", "a"] := rfl
  have hquiet : ((fresh 2 ⟨1, 2⟩).run .standard interleaved).Quiet :=
    Fin.forall_fin_two.mpr ⟨rfl, rfl⟩
  obtain ⟨htest, hsame, -⟩ := run_kept (n := 2) ⟨1, 2⟩ .standard (by decide) (by decide) interleaved
  obtain ⟨-, -, -, hreset, -⟩ :=
    run_kept (n := 2) ⟨1, 2⟩ .standard (by decide) (by decide) (interleaved ++ [.reset 0])
  refine ⟨⟨by decide, by decide⟩, hadded, htest "a" (by rw [hadded]; simp), ?_,
    hreset 0 [0] rfl⟩
  exact hsame hquiet _ (by rw [hadded]; simp [or_comm])

end Shared
end LayeredCache.Filter
