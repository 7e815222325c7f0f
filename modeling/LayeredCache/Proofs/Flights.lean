import LayeredCache.Flights

/-!
# Sound flights

What holds of the flights of a cache at all times: a number belongs to one flight, a caller to one
flight, a key to one listed flight, and a flight that is not settled is listed. What a caller does
leaves the other members of its flight where they are.

Results:
* `find?_eq_some`: a caller finds the flight that it is a member of.
* `listed_part`: when a member that gives up its place leaves the flight on the list.
* `sound_join`, `sound_lineUp`, `sound_settle`, `sound_part`, `sound_release`: every operation keeps
  flights sound.
* `moves_join`, `moves_lineUp`, `moves_settle`, `moves_part`, `moves_release`: what they do to the
  flights of others.
-/

namespace LayeredCache

/-- A member that gives up its place leaves the flight on the list as long as its load goes on and
another member shares it, or another one that has left has not let go yet. -/
theorem Flight.listed_part {f : Flight} {m : Nat} (hl : f.listed = true) (hm : m ∈ f.members) :
    (f.part m).listed = true ↔
      f.outcome = none ∧ (f.members.erase m ≠ [] ∨ f.leaving ≠ []) := by
  have hlen := List.length_erase_of_mem hm
  have hpos := List.length_pos_of_mem hm
  have hcount : 2 < f.references ↔ f.members.erase m ≠ [] ∨ f.leaving ≠ [] := by
    rw [← List.length_pos_iff, ← List.length_pos_iff, Flight.references, if_pos hl]
    omega
  simp [Flight.part, hl, hcount]

namespace Flights

variable {fs : Flights}

/-- No two flights are mixed up. -/
structure Sound (fs : Flights) : Prop where
  numbered : ∀ f ∈ fs.flights, ∀ g ∈ fs.flights, f.number = g.number → f = g
  apart : ∀ f ∈ fs.flights, ∀ g ∈ fs.flights, ∀ m, m ∈ f.members → m ∈ g.members → f = g
  keyed : ∀ f ∈ fs.flights, ∀ g ∈ fs.flights, f.listed = true → g.listed = true → f.key = g.key →
    f = g
  unsettled : ∀ f ∈ fs.flights, f.outcome = none → f.members ≠ [] → f.listed = true
  number_lt : ∀ f ∈ fs.flights, f.number < fs.next
  member_lt : ∀ f ∈ fs.flights, ∀ m ∈ f.members, m < fs.next

theorem sound_empty : Sound empty where
  numbered _ hf := absurd hf List.not_mem_nil
  apart _ hf := absurd hf List.not_mem_nil
  keyed _ hf := absurd hf List.not_mem_nil
  unsettled _ hf := absurd hf List.not_mem_nil
  number_lt _ hf := absurd hf List.not_mem_nil
  member_lt _ hf := absurd hf List.not_mem_nil

theorem has_iff {m : Nat} {f : Flight} : f.has m = true ↔ m ∈ f.members := by simp [Flight.has]

theorem isFor_iff {key : String} {f : Flight} :
    f.isFor key = true ↔ f.listed = true ∧ f.key = key := by simp [Flight.isFor]

/-- A caller finds the flight that it is a member of. -/
theorem find?_eq_some (h : Sound fs) {f : Flight} {m : Nat} (hf : f ∈ fs.flights)
    (hm : m ∈ f.members) : fs.find? m = some f := by
  cases hg : fs.find? m with
  | none => exact absurd (has_iff.mpr hm) (List.find?_eq_none.mp hg f hf)
  | some g =>
    have hgm := has_iff.mp (List.find?_some hg)
    rw [h.apart g (List.mem_of_find?_eq_some hg) f hf m hgm hm]

theorem outcome?_eq (h : Sound fs) {f : Flight} {m : Nat} (hf : f ∈ fs.flights)
    (hm : m ∈ f.members) : fs.outcome? m = f.outcome := by
  rw [outcome?, find?_eq_some h hf hm]
  rfl

/-- A caller goes on once its flight is settled, or is its own to settle. -/
theorem ready_iff (h : Sound fs) {f : Flight} {m : Nat} (hf : f ∈ fs.flights)
    (hm : m ∈ f.members) :
    fs.ready m = true ↔ f.outcome ≠ none ∨ f.line.head? = some m := by
  rw [ready, outcome?_eq h hf hm, leads, find?_eq_some h hf hm, Option.any_some]
  cases f.outcome <;> simp

/-! ## Changing flights -/

theorem mem_change {p : Flight → Bool} {g : Flight → Flight} {f' : Flight} :
    f' ∈ (fs.change p g).flights ↔ ∃ f ∈ fs.flights, (if p f then g f else f) = f' := by
  rw [change, List.mem_map]

/-- A change keeps flights sound if it keeps numbers and keys and lists nothing, and any new member
is one that was nowhere and is now in one flight. -/
theorem sound_change (h : Sound fs) {p : Flight → Bool} {g : Flight → Flight}
    (hn : ∀ f, (g f).number = f.number) (hk : ∀ f, (g f).key = f.key)
    (hl : ∀ f, (g f).listed = true → f.listed = true)
    (hm : ∀ f ∈ fs.flights, p f = true → ∀ m ∈ (g f).members, m ∈ f.members ∨ m < fs.next ∧
      ∀ f' ∈ fs.flights, m ∉ f'.members ∧ (p f' = true → f' = f))
    (hu : ∀ f ∈ fs.flights, p f = true → (g f).outcome = none → (g f).members ≠ [] →
      (g f).listed = true) :
    Sound (fs.change p g) := by
  have number (f : Flight) : (if p f then g f else f).number = f.number := by
    split
    · exact hn f
    · rfl
  have key (f : Flight) : (if p f then g f else f).key = f.key := by
    split
    · exact hk f
    · rfl
  have listed (f : Flight) (h : (if p f then g f else f).listed = true) : f.listed = true := by
    split at h
    · exact hl f h
    · exact h
  have member {f : Flight} (hf : f ∈ fs.flights) {m : Nat}
      (h : m ∈ (if p f then g f else f).members) : m ∈ f.members ∨ p f = true ∧ m < fs.next ∧
      ∀ f' ∈ fs.flights, m ∉ f'.members ∧ (p f' = true → f' = f) := by
    split at h
    · rename_i hp
      exact (hm f hf hp m h).imp_right fun h => ⟨hp, h⟩
    · exact .inl h
  constructor
  case numbered =>
    rintro f' hf' g' hg' he
    obtain ⟨f, hf, rfl⟩ := mem_change.mp hf'
    obtain ⟨g, hg, rfl⟩ := mem_change.mp hg'
    rw [number, number] at he
    rw [h.numbered f hf g hg he]
  case apart =>
    rintro f' hf' g' hg' m hm₁ hm₂
    obtain ⟨f, hf, rfl⟩ := mem_change.mp hf'
    obtain ⟨g, hg, rfl⟩ := mem_change.mp hg'
    rcases member hf hm₁ with h₁ | ⟨hp, -, ho⟩
    · rcases member hg hm₂ with h₂ | ⟨-, -, ho⟩
      · rw [h.apart f hf g hg m h₁ h₂]
      · exact absurd h₁ (ho f hf).1
    · rcases member hg hm₂ with h₂ | ⟨hp', -, -⟩
      · exact absurd h₂ (ho g hg).1
      · rw [(ho g hg).2 hp']
  case keyed =>
    rintro f' hf' g' hg' hl hl' he
    obtain ⟨f, hf, rfl⟩ := mem_change.mp hf'
    obtain ⟨g, hg, rfl⟩ := mem_change.mp hg'
    rw [key, key] at he
    rw [h.keyed f hf g hg (listed f hl) (listed g hl') he]
  case unsettled =>
    rintro f' hf' ho hne
    obtain ⟨f, hf, rfl⟩ := mem_change.mp hf'
    split at ho
    · rename_i hp
      rw [if_pos hp] at hne ⊢
      exact hu f hf hp ho hne
    · rename_i hp
      rw [if_neg hp] at hne ⊢
      exact h.unsettled f hf ho hne
  case number_lt =>
    rintro f' hf'
    obtain ⟨f, hf, rfl⟩ := mem_change.mp hf'
    rw [number]
    exact h.number_lt f hf
  case member_lt =>
    rintro f' hf' m hm'
    obtain ⟨f, hf, rfl⟩ := mem_change.mp hf'
    rcases member hf hm' with h' | ⟨-, h', -⟩
    · exact h.member_lt f hf m h'
    · exact h'

theorem sound_filter (h : Sound fs) (p : Flight → Bool) :
    Sound { fs with flights := fs.flights.filter p } where
  numbered f hf g hg := h.numbered f (List.mem_filter.mp hf).1 g (List.mem_filter.mp hg).1
  apart f hf g hg := h.apart f (List.mem_filter.mp hf).1 g (List.mem_filter.mp hg).1
  keyed f hf g hg := h.keyed f (List.mem_filter.mp hf).1 g (List.mem_filter.mp hg).1
  unsettled f hf := h.unsettled f (List.mem_filter.mp hf).1
  number_lt f hf := h.number_lt f (List.mem_filter.mp hf).1
  member_lt f hf := h.member_lt f (List.mem_filter.mp hf).1

theorem sound_lineUp (h : Sound fs) (m : Nat) : Sound (fs.lineUp m) :=
  sound_change h (fun _ => rfl) (fun _ => rfl) (fun _ hl => hl) (fun _ _ _ _ hm => .inl hm)
    fun f hf _ ho hne => h.unsettled f hf ho hne

theorem sound_settle (h : Sound fs) (m : Nat) (o : Answer Value) : Sound (fs.settle m o) :=
  sound_change h (fun _ => rfl) (fun _ => rfl) (fun _ hl => hl) (fun _ _ _ _ hm => .inl hm)
    fun _ _ _ ho _ => absurd ho (by simp)

theorem listed_of_part {m : Nat} {f : Flight} (h : (f.part m).listed = true) :
    f.listed = true := by
  simp only [Flight.part, Bool.and_eq_true] at h
  exact h.1.1

theorem sound_part (h : Sound fs) (m : Nat) : Sound (fs.part m) := by
  refine sound_change h (fun _ => rfl) (fun _ => rfl) (fun _ => listed_of_part) ?_ ?_
  · exact fun f _ _ n hn => .inl (List.mem_of_mem_erase hn)
  · intro f hf hm ho hne
    have hm := has_iff.mp hm
    have hl := h.unsettled f hf ho (List.ne_nil_of_mem hm)
    exact (Flight.listed_part hl hm).mpr ⟨ho, .inl hne⟩

theorem sound_release (h : Sound fs) (m : Nat) : Sound (fs.release m) :=
  sound_filter (sound_change (p := Flight.leftBy m) (g := Flight.release m) h (fun _ => rfl)
    (fun _ => rfl) (fun _ hl => hl) (fun _ _ _ _ hm => .inl hm)
    fun f hf _ ho hne => h.unsettled f hf ho hne) _

theorem mem_enlist {me : Nat} {key : String} {f' : Flight}
    (h : f' ∈ (enlist me key fs).flights) :
    f' ∈ fs.flights ∨
      f' = .new me key ∧ ∀ f ∈ fs.flights, f.isFor key = false := by
  unfold enlist at h
  split at h
  · exact .inl h
  · rename_i ha
    rcases List.mem_append.mp h with h | h
    · exact .inl h
    · exact .inr ⟨List.mem_singleton.mp h, by simpa using ha⟩

theorem mem_enlist_of_mem {me : Nat} {key : String} {f : Flight} (h : f ∈ fs.flights) :
    f ∈ (enlist me key fs).flights := by
  unfold enlist
  split
  · exact h
  · exact List.mem_append_left _ h

/-- There is a flight to join. -/
theorem exists_isFor_enlist (fs : Flights) (me : Nat) (key : String) :
    ∃ f ∈ (enlist me key fs).flights, f.isFor key = true := by
  unfold enlist
  split
  · rename_i ha
    exact List.any_eq_true.mp ha
  · exact ⟨_, List.mem_append_right _ (List.mem_singleton_self _), isFor_iff.mpr ⟨rfl, rfl⟩⟩

theorem next_enlist (me : Nat) (key : String) : (enlist me key fs).next = fs.next := by
  unfold enlist
  split <;> rfl

theorem sound_enlist (h : Sound fs) (key : String) :
    Sound (enlist fs.next key { fs with next := fs.next + 1 }) := by
  have fresh {f : Flight} (hf : f ∈ fs.flights) : f.number ≠ fs.next :=
    Nat.ne_of_lt (h.number_lt f hf)
  constructor
  case numbered =>
    intro f hf g hg he
    rcases mem_enlist hf with hf | ⟨rfl, -⟩ <;> rcases mem_enlist hg with hg | ⟨rfl, -⟩
    · exact h.numbered f hf g hg he
    · exact absurd he (fresh hf)
    · exact absurd he.symm (fresh hg)
    · rfl
  case apart =>
    intro f hf g hg m hm hm'
    rcases mem_enlist hf with hf | ⟨rfl, -⟩ <;> rcases mem_enlist hg with hg | ⟨rfl, -⟩
    · exact h.apart f hf g hg m hm hm'
    · exact absurd hm' List.not_mem_nil
    · exact absurd hm List.not_mem_nil
    · rfl
  case keyed =>
    intro f hf g hg hl hl' he
    rcases mem_enlist hf with hf | ⟨rfl, hn⟩ <;> rcases mem_enlist hg with hg | ⟨rfl, hn'⟩
    · exact h.keyed f hf g hg hl hl' he
    · exact absurd (isFor_iff.mpr ⟨hl, he⟩) (Bool.eq_false_iff.mp (hn' f hf))
    · exact absurd (isFor_iff.mpr ⟨hl', he.symm⟩) (Bool.eq_false_iff.mp (hn g hg))
    · rfl
  case unsettled =>
    intro f hf ho hne
    rcases mem_enlist hf with hf | ⟨rfl, -⟩
    · exact h.unsettled f hf ho hne
    · rfl
  case number_lt =>
    intro f hf
    rw [next_enlist]
    rcases mem_enlist hf with hf | ⟨rfl, -⟩
    · exact Nat.lt_succ_of_lt (h.number_lt f hf)
    · exact Nat.lt_succ_self _
  case member_lt =>
    intro f hf m hm
    rw [next_enlist]
    rcases mem_enlist hf with hf | ⟨rfl, -⟩
    · exact Nat.lt_succ_of_lt (h.member_lt f hf m hm)
    · exact absurd hm List.not_mem_nil

/-- The number of a new caller is in no flight. -/
theorem next_not_mem (h : Sound fs) {key : String} {f : Flight}
    (hf : f ∈ (enlist fs.next key { fs with next := fs.next + 1 }).flights) :
    fs.next ∉ f.members := by
  rcases mem_enlist hf with hf | ⟨rfl, -⟩
  · exact fun hm => Nat.lt_irrefl _ (h.member_lt f hf _ hm)
  · exact List.not_mem_nil

theorem sound_join (h : Sound fs) (key : String) : Sound (fs.join key).2 := by
  have he := sound_enlist h key
  refine sound_change he (fun _ => rfl) (fun _ => rfl) (fun _ hl => hl) ?_ ?_
  · intro f hf hp m hm
    rcases List.mem_append.mp hm with hm | hm
    · exact .inl hm
    · obtain rfl := List.mem_singleton.mp hm
      refine .inr ⟨by rw [next_enlist]; exact Nat.lt_succ_self _, fun f' hf' => ?_⟩
      refine ⟨next_not_mem h hf', fun hp' => ?_⟩
      rw [isFor_iff] at hp hp'
      exact he.keyed f' hf' f hf hp'.1 hp.1 (hp'.2.trans hp.2.symm)
  · exact fun f _ hp _ _ => (isFor_iff.mp hp).1

/-! ## What an operation does to the flights of others -/

/-- Something was done to the flights. Whoever has not left is in the flight that it was in, and at
the head of the line if it was there; the outcomes are those that `out` says. -/
structure Moves (left : Option Nat) (out : Flight → Option (Answer Value)) (fs fs' : Flights) :
    Prop where
  next_le : fs.next ≤ fs'.next
  /-- A flight is one of before, or new. -/
  back : ∀ f' ∈ fs'.flights, (∃ f ∈ fs.flights, f'.number = f.number ∧ f'.key = f.key ∧
    f'.outcome = out f ∧ (f'.listed = true → f.listed = true)) ∨
    f'.number = fs.next ∧ f'.outcome = none ∧ fs.next < fs'.next
  /-- Nobody but one who leaves takes a flight off the list. -/
  stays : left = none → ∀ f ∈ fs.flights, f.listed = true → ∃ f' ∈ fs'.flights,
    f'.listed = true ∧ f'.number = f.number
  /-- A member is where it was. -/
  forth : ∀ f ∈ fs.flights, ∀ m ∈ f.members, left ≠ some m → ∃ f' ∈ fs'.flights, m ∈ f'.members ∧
    f'.number = f.number ∧ f'.key = f.key ∧ f'.outcome = out f ∧
    (f.line.head? = some m → f'.line.head? = some m)

theorem moves_refl (fs : Flights) : Moves none Flight.outcome fs fs where
  next_le := Nat.le_refl _
  back f hf := .inl ⟨f, hf, rfl, rfl, rfl, id⟩
  stays _ f hf hl := ⟨f, hf, hl, rfl⟩
  forth f hf _ hm _ := ⟨f, hf, hm, rfl, rfl, rfl, id⟩

/-- A change by which nobody leaves a flight, and nobody passes the one at the head of its line. -/
theorem moves_change {p : Flight → Bool} {g : Flight → Flight}
    {out : Flight → Option (Answer Value)} (hn : ∀ f, (g f).number = f.number)
    (hk : ∀ f, (g f).key = f.key) (hl : ∀ f, (g f).listed = f.listed)
    (ho : ∀ f, (if p f then g f else f).outcome = out f)
    (hm : ∀ f m, m ∈ f.members → m ∈ (g f).members)
    (hh : ∀ f m, f.line.head? = some m → (g f).line.head? = some m) :
    Moves none out fs (fs.change p g) := by
  have same (f : Flight) : (if p f then g f else f).number = f.number ∧
      (if p f then g f else f).key = f.key ∧ (if p f then g f else f).listed = f.listed := by
    split
    · exact ⟨hn f, hk f, hl f⟩
    · exact ⟨rfl, rfl, rfl⟩
  constructor
  case next_le => exact Nat.le_refl _
  case back =>
    intro f' hf'
    obtain ⟨f, hf, rfl⟩ := mem_change.mp hf'
    obtain ⟨hnum, hkey, hlist⟩ := same f
    exact .inl ⟨f, hf, hnum, hkey, ho f, fun h => hlist ▸ h⟩
  case stays =>
    intro _ f hf hlf
    obtain ⟨hnum, -, hlist⟩ := same f
    exact ⟨_, mem_change.mpr ⟨f, hf, rfl⟩, hlist.trans hlf, hnum⟩
  case forth =>
    intro f hf m hmf _
    obtain ⟨hnum, hkey, -⟩ := same f
    refine ⟨_, mem_change.mpr ⟨f, hf, rfl⟩, ?_, hnum, hkey, ho f, ?_⟩
    · split
      · exact hm f m hmf
      · exact hmf
    · split
      · exact hh f m
      · exact id

theorem moves_lineUp (fs : Flights) (m : Nat) : Moves none Flight.outcome fs (fs.lineUp m) := by
  refine moves_change (fun _ => rfl) (fun _ => rfl) (fun _ => rfl) (fun f => ?_)
    (fun _ _ hn => hn) (fun f n hh => ?_)
  · split <;> rfl
  · simp [List.head?_append, hh]

theorem moves_settle (fs : Flights) (m : Nat) (o : Answer Value) :
    Moves none (fun f => if f.has m then some o else f.outcome) fs (fs.settle m o) := by
  refine moves_change (fun _ => rfl) (fun _ => rfl) (fun _ => rfl) (fun f => ?_)
    (fun _ _ hn => hn) (fun _ _ hh => hh)
  split <;> rfl

/-- Flights off the list without members may go. -/
theorem Moves.filter {left : Option Nat} {out : Flight → Option (Answer Value)} {fs' : Flights}
    (h : Moves left out fs fs') {p : Flight → Bool}
    (hp : ∀ f, f.listed = true ∨ f.members ≠ [] → p f = true) :
    Moves left out fs { fs' with flights := fs'.flights.filter p } where
  next_le := h.next_le
  back f' hf' := h.back f' (List.mem_filter.mp hf').1
  stays hl f hf hlf := by
    obtain ⟨f', hf', hl', hn⟩ := h.stays hl f hf hlf
    exact ⟨f', List.mem_filter.mpr ⟨hf', hp f' (.inl hl')⟩, hl', hn⟩
  forth f hf m hm hne := by
    obtain ⟨f', hf', hm', h'⟩ := h.forth f hf m hm hne
    exact ⟨f', List.mem_filter.mpr ⟨hf', hp f' (.inr (List.ne_nil_of_mem hm'))⟩, hm', h'⟩

theorem references_pos {f : Flight} (h : f.listed = true ∨ f.members ≠ []) : 0 < f.references := by
  unfold Flight.references
  rcases h with hl | hm
  · rw [if_pos hl]
    omega
  · have := List.length_pos_iff.mpr hm
    omega

theorem moves_release (fs : Flights) (m : Nat) : Moves none Flight.outcome fs (fs.release m) := by
  have kept : Moves none Flight.outcome fs
      (fs.change (Flight.leftBy m) (Flight.release m)) := by
    refine moves_change (fun _ => rfl) (fun _ => rfl) (fun _ => rfl) (fun f => ?_)
      (fun _ _ hn => hn) fun _ _ hh => hh
    split <;> rfl
  exact kept.filter fun f hf => decide_eq_true (references_pos hf)

theorem moves_part (fs : Flights) (m : Nat) : Moves (some m) Flight.outcome fs (fs.part m) where
  next_le := Nat.le_refl _
  back := by
    intro f' hf'
    obtain ⟨f, hf, rfl⟩ := mem_change.mp hf'
    refine .inl ⟨f, hf, ?_⟩
    split
    · exact ⟨rfl, rfl, rfl, listed_of_part⟩
    · exact ⟨rfl, rfl, rfl, id⟩
  stays h := absurd h (by simp)
  forth := by
    intro f hf n hn hne
    have hne : n ≠ m := fun h => hne (congrArg some h.symm)
    refine ⟨_, mem_change.mpr ⟨f, hf, rfl⟩, ?_⟩
    split
    · refine ⟨(List.mem_erase_of_ne hne).mpr hn, rfl, rfl, rfl, fun hh => ?_⟩
      obtain ⟨r, hr⟩ := List.head?_eq_some_iff.mp hh
      simp [Flight.part, hr, hne]
    · exact ⟨hn, rfl, rfl, rfl, id⟩

theorem moves_join (fs : Flights) (key : String) :
    Moves none Flight.outcome fs (fs.join key).2 where
  next_le := by
    change fs.next ≤ (enlist _ _ _).next
    rw [next_enlist]
    exact Nat.le_succ _
  back := by
    intro f' hf'
    obtain ⟨f, hf, rfl⟩ := mem_change.mp hf'
    rcases mem_enlist hf with hf | ⟨rfl, -⟩
    · refine .inl ⟨f, hf, ?_⟩
      split <;> exact ⟨rfl, rfl, rfl, id⟩
    · refine .inr ⟨?_, ?_, ?_⟩
      · split <;> rfl
      · split <;> rfl
      · change fs.next < (enlist _ _ _).next
        rw [next_enlist]
        exact Nat.lt_succ_self _
  stays := by
    intro _ f hf hl
    refine ⟨_, mem_change.mpr ⟨f, mem_enlist_of_mem hf, rfl⟩, ?_⟩
    split <;> exact ⟨hl, rfl⟩
  forth := by
    intro f hf n hn _
    refine ⟨_, mem_change.mpr ⟨f, mem_enlist_of_mem hf, rfl⟩, ?_⟩
    split
    · exact ⟨List.mem_append_left _ hn, rfl, rfl, rfl, id⟩
    · exact ⟨hn, rfl, rfl, rfl, id⟩

/-- The flight of a new caller is one listed for the key before, or new. -/
theorem exists_joined (fs : Flights) (key : String) : ∃ f ∈ (fs.join key).2.flights,
    fs.next ∈ f.members ∧ f.key = key ∧ f.listed = true ∧
      (f.number = fs.next ∨
        ∃ g ∈ fs.flights, g.listed = true ∧ g.key = key ∧ g.number = f.number) := by
  obtain ⟨f, hf, hp⟩ := exists_isFor_enlist { fs with next := fs.next + 1 } fs.next key
  have hj : f.board fs.next ∈ (fs.join key).2.flights := mem_change.mpr ⟨f, hf, if_pos hp⟩
  obtain ⟨hl, hk⟩ := isFor_iff.mp hp
  refine ⟨_, hj, List.mem_append_right _ (List.mem_singleton_self _), hk, hl, ?_⟩
  rcases mem_enlist hf with hf | ⟨rfl, -⟩
  · exact .inr ⟨f, hf, hl, hk, rfl⟩
  · exact .inl rfl

end Flights
end LayeredCache
