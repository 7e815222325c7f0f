import LayeredCache.Proofs.Singleflight
import LayeredCache.Session.State
import Mathlib.Data.List.Nodup

/-!
# Flights on the list

Whose flight stands on the list of a cache that shares loads, and who takes it off. A caller joins
a flight, settles it, and leaves it when it is done or given up.

A caller that is given up looks whether others refer to its flight, and lets go of the flight only
later. If two leave one after the other, the second one finds that it is the last. If both have
looked before either has let go, each of them counts the other one, and the flight stays on the list
without callers (`left_at_once`), until another caller of the key comes and joins it. That is the
only way: as long as nobody is given up while somebody else who has left the flight has still to let
go of it (`InTurn`), a flight on the list has a current caller.

Results:
* `crewed_join`, `crewed_part`, `crewed_release`: no flight is there twice, or counts a member
  twice.
* `attended_part`: a flight that stays on the list has members left, if those who left it before
  have let go.
* `manned_flies`, `manned_givenUp`: the members of the flights are callers that are not given up.
* `onList_moved`: who takes a flight off the list.
* `attended_moved`: what every turn keeps of the flights whose members leave in turn.
* `run_tended`: one flight on the list for a key, every current caller of an open flight with its
  flight on the list, and, where callers leave in turn, none without callers.
* `left_at_once`: two callers of one flight that are given up at once.
-/

namespace LayeredCache

namespace Flights

variable {fs : Flights}

/-- Every flight is there once, and has each of its members once. -/
structure Crewed (fs : Flights) : Prop where
  numbers : (fs.flights.map Flight.number).Nodup
  nodup : ∀ f ∈ fs.flights, f.members.Nodup

/-- The number is that of a member of a flight. -/
def Aboard (fs : Flights) (m : Nat) : Prop := ∃ f ∈ fs.flights, m ∈ f.members

theorem crewed_empty : Crewed empty where
  numbers := List.nodup_nil
  nodup _ hf := absurd hf List.not_mem_nil

theorem numbers_change {p : Flight → Bool} {g : Flight → Flight}
    (hn : ∀ f, (g f).number = f.number) :
    (fs.change p g).flights.map Flight.number = fs.flights.map Flight.number := by
  rw [change, List.map_map]
  refine List.map_congr_left fun f _ => ?_
  rw [Function.comp_apply]
  split
  · exact hn f
  · rfl

/-- A change by which nobody comes or goes. -/
theorem crewed_change (h : Crewed fs) {p : Flight → Bool} {g : Flight → Flight}
    (hn : ∀ f, (g f).number = f.number) (hm : ∀ f, (g f).members = f.members) :
    Crewed (fs.change p g) := by
  have members (f : Flight) : (if p f then g f else f).members = f.members := by
    split
    · exact hm f
    · rfl
  constructor
  case numbers =>
    rw [numbers_change hn]
    exact h.numbers
  case nodup =>
    intro f' hf'
    obtain ⟨f, hf, rfl⟩ := mem_change.mp hf'
    rw [members]
    exact h.nodup f hf

theorem aboard_change {p : Flight → Bool} {g : Flight → Flight} {m : Nat}
    (h : (fs.change p g).Aboard m) (hm : ∀ f, (g f).members = f.members) : fs.Aboard m := by
  obtain ⟨f', hf', hmem⟩ := h
  obtain ⟨f, hf, rfl⟩ := mem_change.mp hf'
  refine ⟨f, hf, ?_⟩
  split at hmem
  · exact hm f ▸ hmem
  · exact hmem

/-- The members of a flight after a caller has joined: those of a flight before, and perhaps the
caller, or the caller alone. -/
theorem members_join {key : String} {f' : Flight} (hf' : f' ∈ (fs.join key).2.flights) :
    (∃ f ∈ fs.flights, f'.members = f.members ∨ f'.members = f.members ++ [fs.next]) ∨
      f'.members = [fs.next] := by
  obtain ⟨f, hf, rfl⟩ := mem_change.mp hf'
  rcases mem_enlist hf with hf | ⟨rfl, -⟩
  · refine .inl ⟨f, hf, ?_⟩
    split
    · exact .inr rfl
    · exact .inl rfl
  · have hfor : (Flight.new fs.next key).isFor key = true := isFor_iff.mpr ⟨rfl, rfl⟩
    rw [if_pos hfor]
    exact .inr rfl

theorem crewed_join (h : Crewed fs) (hs : fs.Sound) (key : String) : Crewed (fs.join key).2 := by
  constructor
  case numbers =>
    rw [join, numbers_change (g := Flight.board fs.next) fun _ => rfl, enlist]
    split
    · exact h.numbers
    · rw [List.map_append]
      refine h.numbers.append (List.nodup_singleton _) fun n hn hn' => ?_
      obtain ⟨f, hf, rfl⟩ := List.mem_map.mp hn
      exact Nat.ne_of_lt (hs.number_lt f hf) (List.mem_singleton.mp hn')
  case nodup =>
    intro f' hf'
    rcases members_join hf' with ⟨f, hf, hm | hm⟩ | hm <;> rw [hm]
    · exact h.nodup f hf
    · refine (h.nodup f hf).append (List.nodup_singleton _) fun n hn hn' => ?_
      obtain rfl := List.mem_singleton.mp hn'
      exact Nat.lt_irrefl _ (hs.member_lt f hf _ hn)
    · exact List.nodup_singleton _

theorem aboard_join {key : String} {m : Nat} (h : (fs.join key).2.Aboard m) :
    m = fs.next ∨ fs.Aboard m := by
  obtain ⟨f', hf', hmem⟩ := h
  rcases members_join hf' with ⟨f, hf, hm | hm⟩ | hm <;> rw [hm] at hmem
  · exact .inr ⟨f, hf, hmem⟩
  · rcases List.mem_append.mp hmem with hmem | hmem
    · exact .inr ⟨f, hf, hmem⟩
    · exact .inl (List.mem_singleton.mp hmem)
  · exact .inl (List.mem_singleton.mp hmem)

/-- The members of a flight after one of the members has given up its place. -/
theorem members_part {m : Nat} {f' : Flight} (hf' : f' ∈ (fs.part m).flights) :
    ∃ f ∈ fs.flights, f'.members = f.members.erase m := by
  obtain ⟨f, hf, rfl⟩ := mem_change.mp hf'
  refine ⟨f, hf, ?_⟩
  split
  · rfl
  · rename_i hm
    exact (List.erase_of_not_mem fun h => hm (has_iff.mpr h)).symm

theorem crewed_part (h : Crewed fs) (m : Nat) : Crewed (fs.part m) where
  numbers := by
    rw [part, numbers_change (g := Flight.part m) fun _ => rfl]
    exact h.numbers
  nodup f' hf' := by
    obtain ⟨f, hf, hm⟩ := members_part hf'
    rw [hm]
    exact (h.nodup f hf).erase m

/-- Whoever has given up its place is in no flight. -/
theorem aboard_part (h : Crewed fs) {m n : Nat} (hn : (fs.part m).Aboard n) :
    n ≠ m ∧ fs.Aboard n := by
  obtain ⟨f', hf', hmem⟩ := hn
  obtain ⟨f, hf, hm⟩ := members_part hf'
  rw [hm, (h.nodup f hf).mem_erase_iff] at hmem
  exact ⟨hmem.1, f, hf, hmem.2⟩

theorem crewed_filter (h : Crewed fs) (p : Flight → Bool) :
    Crewed { fs with flights := fs.flights.filter p } where
  numbers := h.numbers.sublist (List.filter_sublist.map _)
  nodup f hf := h.nodup f (List.mem_filter.mp hf).1

theorem crewed_release (h : Crewed fs) (m : Nat) : Crewed (fs.release m) :=
  crewed_filter (crewed_change (p := Flight.leftBy m) (g := Flight.release m) h (fun _ => rfl)
    fun _ => rfl) _

theorem aboard_release {m n : Nat} (h : (fs.release m).Aboard n) : fs.Aboard n := by
  obtain ⟨f, hf, hn⟩ := h
  exact aboard_change (p := Flight.leftBy m) (g := Flight.release m)
    ⟨f, (List.mem_filter.mp hf).1, hn⟩ fun _ => rfl

/-- A flight stays on the list when a caller gives up its place that is not in it, and when another
caller shares it still, its load not having ended. -/
theorem exists_listed_part {f : Flight} (hf : f ∈ fs.flights) (hl : f.listed = true) {m : Nat}
    (hm : m ∈ f.members → f.outcome = none ∧ ∃ n ∈ f.members, n ≠ m) :
    ∃ f' ∈ (fs.part m).flights, f'.listed = true ∧ f'.number = f.number := by
  by_cases hmem : m ∈ f.members
  · obtain ⟨ho, n, hn, hne⟩ := hm hmem
    have hne' : f.members.erase m ≠ [] := List.ne_nil_of_mem ((List.mem_erase_of_ne hne).mpr hn)
    have hlisted := (Flight.listed_part hl hmem).mpr ⟨ho, .inl hne'⟩
    exact ⟨f.part m, mem_change.mpr ⟨f, hf, if_pos (has_iff.mpr hmem)⟩, hlisted, rfl⟩
  · have hhas : ¬ f.has m = true := fun h' => hmem (has_iff.mp h')
    exact ⟨f, mem_change.mpr ⟨f, hf, if_neg hhas⟩, hl, rfl⟩

/-! ## Flights without members -/

/-- A flight on the list has members, if it is settled or has one of the numbers. -/
def Attended (N : Nat → Prop) (fs : Flights) : Prop :=
  ∀ f ∈ fs.flights, f.listed = true → f.outcome ≠ none ∨ N f.number → f.members ≠ []

variable {N : Nat → Prop}

/-- A change by which nobody leaves, and nobody settles a flight without members. -/
theorem attended_change (h : Attended N fs) {p : Flight → Bool} {g : Flight → Flight}
    (hn : ∀ f, (g f).number = f.number) (hl : ∀ f, (g f).listed = f.listed)
    (hm : ∀ f, p f = true →
      (g f).members ≠ [] ∨ (g f).members = f.members ∧ (g f).outcome = f.outcome) :
    Attended N (fs.change p g) := by
  intro f' hf'
  obtain ⟨f, hf, rfl⟩ := mem_change.mp hf'
  by_cases hp : p f = true
  · rw [if_pos hp]
    rcases hm f hp with hne | ⟨hmembers, ho⟩
    · exact fun _ _ => hne
    · rw [hmembers, ho, hn, hl]
      exact h f hf
  · rw [if_neg hp]
    exact h f hf

theorem attended_join (h : Attended N fs) (key : String) : Attended N (fs.join key).2 := by
  intro f' hf'
  obtain ⟨f, hf, rfl⟩ := mem_change.mp hf'
  by_cases hp : f.isFor key = true
  · rw [if_pos hp]
    exact fun _ _ => List.append_ne_nil_of_right_ne_nil _ (List.cons_ne_nil _ _)
  · rw [if_neg hp]
    rcases mem_enlist hf with hf | ⟨rfl, -⟩
    · exact h f hf
    · exact absurd (isFor_iff.mpr ⟨rfl, rfl⟩) hp

theorem attended_release (h : Attended N fs) (m : Nat) : Attended N (fs.release m) := by
  have hkept := attended_change (p := Flight.leftBy m) (g := Flight.release m) h (fun _ => rfl)
    (fun _ => rfl) fun _ _ => .inr ⟨rfl, rfl⟩
  exact fun f hf => hkept f (List.mem_filter.mp hf).1

/-- **A flight that stays on the list has members left**, if those who left it before have let
go. -/
theorem attended_part (h : Attended N fs) {m : Nat}
    (hm : ∀ f ∈ fs.flights, N f.number → m ∈ f.members → f.outcome = none → f.leaving = []) :
    Attended N (fs.part m) := by
  intro f' hf'
  obtain ⟨f, hf, rfl⟩ := mem_change.mp hf'
  by_cases hp : f.has m = true
  · rw [if_pos hp]
    intro hlisted hN
    have hmem := has_iff.mp hp
    obtain ⟨ho, hothers⟩ := (Flight.listed_part (listed_of_part hlisted) hmem).mp hlisted
    have hnumber : N f.number := hN.resolve_left fun hne => hne ho
    exact hothers.resolve_right fun hne => hne (hm f hf hnumber hmem ho)
  · rw [if_neg hp]
    exact h f hf

/-- At most one flight is listed for a key. -/
theorem countP_isFor_le (h : Crewed fs) (hs : fs.Sound) (key : String) :
    fs.flights.countP (Flight.isFor key) ≤ 1 := by
  have hnodup : (fs.flights.filter (Flight.isFor key)).Nodup :=
    (List.Nodup.of_map _ h.numbers).filter _
  have same {f g : Flight} (hf : f ∈ fs.flights.filter (Flight.isFor key))
      (hg : g ∈ fs.flights.filter (Flight.isFor key)) : f = g := by
    obtain ⟨hf, hpf⟩ := List.mem_filter.mp hf
    obtain ⟨hg, hpg⟩ := List.mem_filter.mp hg
    obtain ⟨hlf, hkf⟩ := isFor_iff.mp hpf
    obtain ⟨hlg, hkg⟩ := isFor_iff.mp hpg
    exact hs.keyed f hf g hg hlf hlg (hkf.trans hkg.symm)
  rw [List.countP_eq_length_filter]
  match hfs : fs.flights.filter (Flight.isFor key) with
  | [] => exact Nat.zero_le 1
  | [f] => exact Nat.le_refl 1
  | f :: g :: rest =>
    rw [hfs] at hnodup
    have hfg := same (f := f) (g := g) (hfs ▸ List.mem_cons_self)
      (hfs ▸ List.mem_cons_of_mem _ List.mem_cons_self)
    subst hfg
    exact absurd List.mem_cons_self (List.nodup_cons.mp hnodup).1

end Flights

namespace Sky

variable {ι ρ : Type}

/-! ## The members of flights are callers -/

/-- Every member of a flight is a caller that is not given up. -/
structure Manned (fs : Flights) (stages : ι → Option (Stage ρ)) : Prop where
  crewed : fs.Crewed
  known : ∀ m, fs.Aboard m → ∃ i x, stages i = some x ∧ x.number? = some m

section Step

variable [DecidableEq ι] {s s' : Sky ι ρ} {stages : ι → Option (Stage ρ)} {i : ι} {x : Stage ρ}

/-- A turn of a caller, by which others stay, and the caller does if it keeps its number. -/
theorem manned_update {fs fs' : Flights} (h : Manned fs stages) (hi : stages i = some x)
    (hc : fs'.Crewed) (y : Option (Stage ρ))
    (hk : ∀ m, fs'.Aboard m → (∃ z, y = some z ∧ z.number? = some m) ∨
      fs.Aboard m ∧ (x.number? = some m → ∃ z, y = some z ∧ z.number? = some m)) :
    Manned fs' (Function.update stages i y) := by
  refine ⟨hc, fun m hm => ?_⟩
  have here (hz : ∃ z, y = some z ∧ z.number? = some m) :
      ∃ j z, Function.update stages i y j = some z ∧ z.number? = some m := by
    obtain ⟨z, rfl, hz⟩ := hz
    exact ⟨i, z, Function.update_self .., hz⟩
  rcases hk m hm with hz | ⟨ha, hx⟩
  · exact here hz
  · obtain ⟨j, w, hj, hw⟩ := h.known m ha
    by_cases hji : j = i
    · subst hji
      obtain rfl := Option.some.inj (hi.symm.trans hj)
      exact here (hx hw)
    · exact ⟨j, w, (Function.update_of_ne hji ..).trans hj, hw⟩

/-- A step by which nobody joins or leaves. -/
theorem manned_same {fs fs' : Flights} (h : Manned fs stages) (hi : stages i = some x)
    {z : Stage ρ} (hz : z.number? = x.number?) (hc : fs'.Crewed)
    (ha : ∀ m, fs'.Aboard m → fs.Aboard m) :
    Manned fs' (Function.update stages i (some z)) :=
  manned_update h hi hc _ fun m hm => .inr ⟨ha m hm, fun hx => ⟨z, rfl, hz.trans hx⟩⟩

/-- A caller gives up its place. -/
theorem manned_part {fs : Flights} (h : Manned fs stages) (hi : stages i = some x) {me : Nat}
    (hx : x.number? = some me) (y : Option (Stage ρ)) :
    Manned (fs.part me) (Function.update stages i y) := by
  refine manned_update h hi (Flights.crewed_part h.crewed me) y fun m hm => ?_
  obtain ⟨hne, ha⟩ := Flights.aboard_part h.crewed hm
  exact .inr ⟨ha, fun hm' => absurd (Option.some.inj (hm'.symm.trans hx)) hne⟩

variable {inner : Cache ρ} {load : Loader ρ} {ttl : Duration} {key : String} {z : Stage ρ}

theorem manned_flies (h : Manned s.flights stages) (hs : s.flights.Sound)
    (hi : stages i = some x) (hf : Flies inner load ttl i key s x z s') :
    Manned s'.flights (Function.update stages i (some z)) := by
  have still (hz : z.number? = x.number?) :
      Manned s.flights (Function.update stages i (some z)) :=
    manned_same h hi hz h.crewed fun m hm => hm
  have elsewhere (he : Elsewhere s s') (hz : z.number? = x.number?) :
      Manned s'.flights (Function.update stages i (some z)) := by
    obtain ⟨r, rfl⟩ := he
    exact still hz
  have settled (me : Nat) (o : Answer Value) (hz : z.number? = x.number?) :
      Manned (s.flights.settle me o) (Function.update stages i (some z)) :=
    manned_same h hi hz (Flights.crewed_change h.crewed (fun _ => rfl) fun _ => rfl)
      fun m hm => Flights.aboard_change hm fun _ => rfl
  cases hf with
  | look he => exact elsewhere he rfl
  | join e =>
    refine manned_update h hi (Flights.crewed_join h.crewed hs key) _ fun m hm => ?_
    rcases Flights.aboard_join hm with rfl | hm
    · exact .inl ⟨_, rfl, rfl⟩
    · exact .inr ⟨hm, fun hx => absurd hx (by simp [Stage.number?])⟩
  | lineUp me =>
    exact manned_same h hi rfl (Flights.crewed_change h.crewed (fun _ => rfl) fun _ => rfl)
      fun m hm => Flights.aboard_change hm fun _ => rfl
  | await _ => exact still rfl
  | take _ => exact still rfl
  | lead _ => exact still rfl
  | start me => exact still rfl
  | load he => exact elsewhere he rfl
  | failed me c => exact still rfl
  | loaded me v => exact still rfl
  | offer me v => exact still rfl
  | put he => exact elsewhere he rfl
  | refused he => exact elsewhere he rfl
  | kept me v => exact settled me (.ok v) rfl
  | settle me o => exact settled me o rfl
  | leave me o => exact manned_part h hi rfl _

theorem manned_givenUp (h : Manned s.flights stages) (hi : stages i = some x)
    (hg : GivenUp i s x.number? s') : Manned s'.flights (Function.update stages i none) := by
  generalize hn : x.number? = n at hg
  cases hg with
  | outside he =>
    obtain ⟨r, rfl⟩ := he
    refine manned_update h hi h.crewed none fun m hm => .inr ⟨hm, fun hx => ?_⟩
    exact absurd (hn.symm.trans hx) (by simp)
  | aboard he =>
    obtain ⟨r, rfl⟩ := he
    exact manned_part h hi hn none

omit [DecidableEq ι] in
theorem manned_release {fs : Flights} (h : Manned fs stages) (me : Nat) :
    Manned (fs.release me) stages :=
  ⟨Flights.crewed_release h.crewed me, fun m hm => h.known m (Flights.aboard_release hm)⟩

end Step

/-! ## All callers -/

section Callers

/-- What is guarded has something to do before it is done. -/
theorem answer?_guarded {σ α : Type} (leave : σ → σ) (p : Process σ α) :
    (p.guarded leave).answer? = none := by
  cases p <;> rfl

variable [Clock ρ] [Journal ρ] {ε : Type} {inner : Cache ρ} {load : Loader ρ} {ttl : Duration}
  {keys : ι → String} {effect : ε → ρ → ρ} {p : Pool ι (Sky ι ρ) (Answer Value)}
  {stages : ι → Option (Stage ρ)}

omit [Clock ρ] in
theorem answer?_of_number? {x : Stage ρ} {i : ι} {key : String} {m : Nat}
    (h : x.number? = some m) : (x.process inner load ttl i key).answer? = none := by
  cases x with
  | looking q => cases h
  | ended o => cases h
  | _ => exact answer?_guarded ..

/-- The call of a caller is neither done nor given up. -/
def Pending (p : Pool ι (Sky ι ρ) (Answer Value)) (i : ι) : Prop :=
  ∃ q, p.threads i = some q ∧ q.answer? = none

/-- The caller has joined the flight of that number, and its call is pending. -/
def Current (p : Pool ι (Sky ι ρ) (Answer Value)) (i : ι) (flight : Nat) : Prop :=
  .joined i flight ∈ p.state.log ∧ Pending p i

omit [Clock ρ] in
/-- A current caller is a member of its flight. -/
theorem member_of_current (h : Inv keys ttl p.state stages)
    (hst : Staged inner load ttl keys p stages) {i : ι} {n : Nat} (hc : Current p i n) :
    ∃ x m, ∃ f ∈ p.state.flights.flights, stages i = some x ∧ x.number? = some m ∧
      m ∈ f.members ∧ f.number = n ∧ f.key = keys i := by
  obtain ⟨hj, q, hq, hn⟩ := hc
  rw [hst i] at hq
  obtain ⟨x, hx, rfl⟩ := Option.map_eq_some_iff.mp hq
  have hat := h.at_stage i x hx
  cases hm : x.number? with
  | some m =>
    obtain ⟨f, hr⟩ := rides_of_at hat hm
    exact ⟨x, m, f, hr.mem, hx, hm, hr.member, h.tidy.one i _ _ hj hr.joined, hr.key⟩
  | none =>
    cases x with
    | looking q => exact absurd rfl (hat _ hj)
    | ended o => cases hn
    | _ => cases hm

omit [Clock ρ] in
/-- A member of a flight is a current caller of its key. -/
theorem current_of_member (h : Inv keys ttl p.state stages)
    (hst : Staged inner load ttl keys p stages) (hm : Manned p.state.flights stages) {f : Flight}
    (hf : f ∈ p.state.flights.flights) {m : Nat} (hmem : m ∈ f.members) :
    ∃ i x, stages i = some x ∧ x.number? = some m ∧ Current p i f.number ∧ keys i = f.key := by
  obtain ⟨i, x, hx, hxm⟩ := hm.known m ⟨f, hf, hmem⟩
  obtain ⟨g, hr⟩ := rides_of_at (h.at_stage i x hx) hxm
  obtain rfl := h.sound.apart f hf g hr.mem m hmem hr.member
  have hthread : p.threads i = some (x.process inner load ttl i (keys i)) := by
    rw [hst i, hx]
    rfl
  exact ⟨i, x, hx, hxm, ⟨hr.joined, _, hthread, answer?_of_number? hxm⟩, hr.key.symm⟩

/-- The flight of that number is on the list. -/
def OnList (fs : Flights) (n : Nat) : Prop :=
  ∃ f ∈ fs.flights, f.listed = true ∧ f.number = n

omit [Clock ρ] in
/-- A caller that gives up its place takes no flight off the list but its own, and not while its
load goes on and another caller shares it. -/
theorem onList_part (h : Inv keys ttl p.state stages)
    (hst : Staged inner load ttl keys p stages) (hm : Manned p.state.flights stages) {i : ι}
    {x : Stage ρ} {me : Nat} (hx : stages i = some x) (hme : x.number? = some me) {f : Flight}
    (hf : f ∈ p.state.flights.flights) (hl : f.listed = true) :
    OnList (p.state.flights.part me) f.number ∨
      Current p i f.number ∧ (f.outcome = none → ∀ j, Current p j f.number → j = i) := by
  refine or_iff_not_imp_left.mpr fun hoff => ?_
  have hleft : ¬ (me ∈ f.members → f.outcome = none ∧ ∃ n ∈ f.members, n ≠ me) :=
    fun hstay => hoff (Flights.exists_listed_part hf hl hstay)
  obtain ⟨hmem, hshare⟩ := Classical.not_imp.mp hleft
  obtain ⟨i', x', hx', hxm', hc, -⟩ := current_of_member h hst hm hf hmem
  obtain rfl := h.apart i i' x x' me hx hx' hme hxm'
  refine ⟨hc, fun ho j hj => ?_⟩
  obtain ⟨y, n, g, hg, hy, hyn, hn, hgn, -⟩ := member_of_current h hst hj
  obtain rfl := h.sound.numbered g hg f hf hgn
  have hnme : n = me := by
    by_contra hne
    exact hshare ⟨ho, n, hn, hne⟩
  exact h.apart j i y x n hy hx hyn (hnme ▸ hme)

omit [Clock ρ] [Journal ρ] in
/-- Nobody but a caller that leaves takes a flight off the list. -/
theorem onList_flies {s s' : Sky ι ρ} {i : ι} {key : String} {x z : Stage ρ}
    (hf : Flies inner load ttl i key s x z s') :
    (∀ f ∈ s.flights.flights, f.listed = true → OnList s'.flights f.number) ∨
      ∃ me o, x = .leave me o ∧ z = .ended o ∧ s'.flights = s.flights.part me := by
  have moved {out : Flight → Option (Answer Value)}
      (hm : Flights.Moves none out s.flights s'.flights) :
      ∀ f ∈ s.flights.flights, f.listed = true → OnList s'.flights f.number := hm.stays rfl
  have elsewhere (he : Elsewhere s s') :
      ∀ f ∈ s.flights.flights, f.listed = true → OnList s'.flights f.number := by
    obtain ⟨r, rfl⟩ := he
    exact moved (Flights.moves_refl _)
  cases hf with
  | look he | load he | put he | refused he => exact .inl (elsewhere he)
  | join e => exact .inl (moved (Flights.moves_join ..))
  | lineUp me => exact .inl (moved (Flights.moves_lineUp ..))
  | await _ | take _ | lead _ | start _ | failed _ _ | loaded _ _ | offer _ _ =>
    exact .inl (moved (Flights.moves_refl _))
  | kept me v => exact .inl (moved (Flights.moves_settle ..))
  | settle me o => exact .inl (moved (Flights.moves_settle ..))
  | leave me o => exact .inr ⟨me, o, rfl, rfl, rfl⟩

variable [DecidableEq ι]

variable (keys effect) in
/-- What is promised of the list of flights. -/
structure Tended (p : Pool ι (Sky ι ρ) (Answer Value)) : Prop where
  /-- For a key, one flight is listed at most. -/
  single : ∀ key, p.state.flights.flights.countP (Flight.isFor key) ≤ 1
  /-- A settled flight on the list has a current caller, who asks for its key. -/
  shared : ∀ f ∈ p.state.flights.flights, f.listed = true → f.outcome ≠ none →
    ∃ i, Current p i f.number ∧ keys i = f.key
  /-- The flight of a current caller is there, and it is the one on the list for the key of the
  caller as long as it is not settled. -/
  open_listed : ∀ i n, Current p i n → ∃ f ∈ p.state.flights.flights, f.number = n ∧
    f.key = keys i ∧ (f.outcome = none → f.listed = true)
  /-- If a turn takes a flight off the list, then it is that of a caller whose own flight this is,
  who is done or given up then, and whom nobody shares it with if it is not settled. -/
  retired : ∀ t : Turn ι (Around ε), ∀ f ∈ p.state.flights.flights, f.listed = true →
    OnList (p.turn (afar effect) t).state.flights f.number ∨
      ∃ i, (t = .go i ∨ t = .drop i) ∧ Current p i f.number ∧
        ¬ Pending (p.turn (afar effect) t) i ∧
        (f.outcome = none → ∀ j, Current p j f.number → j = i)

/-- Nobody is given up in the flight of that number while somebody else who has given up a place in
it has still to let go. -/
def InTurn (n : Nat) (p : Pool ι (Sky ι ρ) (Answer Value)) : Turn ι (Around ε) → Prop
  | .drop i => Current p i n → ∀ f ∈ p.state.flights.flights, f.number = n → f.leaving = []
  | _ => True

/-- What every turn keeps of callers and flights. -/
theorem inv_moved_manned {t : Turn ι (Around ε)}
    {x : Option (Pool.Event ι (Sky ι ρ) (Answer Value))} {p' : Pool ι (Sky ι ρ) (Answer Value)}
    (h : ∃ stages, Inv keys ttl p.state stages ∧ Staged inner load ttl keys p stages ∧
      Manned p.state.flights stages)
    (hm : Pool.Moved (afar effect) p t x p') :
    ∃ stages, Inv keys ttl p'.state stages ∧ Staged inner load ttl keys p' stages ∧
      Manned p'.state.flights stages := by
  obtain ⟨stages, hinv, hst, hman⟩ := h
  have staged {s : Sky ι ρ} (i : ι) (y : Option (Stage ρ)) :
      Staged inner load ttl keys ⟨s, Function.update p.threads i
        (y.map (Stage.process inner load ttl i (keys i)))⟩ (Function.update stages i y) :=
    Pool.update_eq_map (e := id) Function.injective_id hst i y
  cases hm with
  | still t => exact ⟨stages, hinv, hst, hman⟩
  | @step i q q' s hq hs =>
    rw [hst i] at hq
    obtain ⟨x, hx, rfl⟩ := Option.map_eq_some_iff.mp hq
    obtain ⟨z, rfl, hf⟩ := flies_of_next? hs
    exact ⟨_, inv_flies hinv hx hf, staged i (some z), manned_flies hman hinv.sound hx hf⟩
  | @gone i w c q hq =>
    rw [hst i] at hq
    obtain ⟨x, hx, hq⟩ := Option.map_eq_some_iff.mp hq
    have hg := givenUp_of_wait hq p.state
    exact ⟨_, inv_givenUp hinv hx hg, staged i none, manned_givenUp hman hx hg⟩
  | outside e =>
    cases e with
    | rest e => exact ⟨stages, inv_outside hinv ⟨_, rfl⟩, hst, hman⟩
    | release me => exact ⟨stages, inv_release hinv me, hst, manned_release hman me⟩

omit [Clock ρ] [Journal ρ] in
theorem not_pending_update (i : ι) {s : Sky ι ρ} {y : Option (Process (Sky ι ρ) (Answer Value))}
    (h : ∀ q, y = some q → q.answer? ≠ none) :
    ¬ Pending ⟨s, Function.update p.threads i y⟩ i := by
  rintro ⟨q, hq, hn⟩
  have hy : Function.update p.threads i y i = y := Function.update_self ..
  exact h q (hy.symm.trans hq) hn

/-- Who takes a flight off the list at a turn. -/
theorem onList_moved (h : Inv keys ttl p.state stages)
    (hst : Staged inner load ttl keys p stages) (hm : Manned p.state.flights stages)
    {t : Turn ι (Around ε)} {x : Option (Pool.Event ι (Sky ι ρ) (Answer Value))}
    {p' : Pool ι (Sky ι ρ) (Answer Value)} (ht : Pool.Moved (afar effect) p t x p')
    {f : Flight} (hf : f ∈ p.state.flights.flights) (hl : f.listed = true) :
    OnList p'.state.flights f.number ∨
      ∃ i, (t = .go i ∨ t = .drop i) ∧ Current p i f.number ∧ ¬ Pending p' i ∧
        (f.outcome = none → ∀ j, Current p j f.number → j = i) := by
  cases ht with
  | still t => exact .inl ⟨f, hf, hl, rfl⟩
  | outside e =>
    cases e with
    | rest e => exact .inl ⟨f, hf, hl, rfl⟩
    | release me => exact .inl ((Flights.moves_release _ me).stays rfl f hf hl)
  | @step i q q' s hq hs =>
    rw [hst i] at hq
    obtain ⟨x, hx, rfl⟩ := Option.map_eq_some_iff.mp hq
    obtain ⟨z, rfl, hz⟩ := flies_of_next? hs
    rcases onList_flies hz with hstay | ⟨me, o, rfl, rfl, hfs⟩
    · exact .inl (hstay f hf hl)
    · rcases onList_part h hst hm hx rfl hf hl with hon | ⟨hc, ho⟩
      · exact .inl (hfs ▸ hon)
      · refine .inr ⟨i, .inl rfl, hc, not_pending_update i fun q hq => ?_, ho⟩
        obtain rfl := Option.some.inj hq
        exact Option.some_ne_none o
  | @gone i w c q hq =>
    rw [hst i] at hq
    obtain ⟨x, hx, hq⟩ := Option.map_eq_some_iff.mp hq
    have hg := givenUp_of_wait hq p.state
    generalize hn : x.number? = n at hg
    generalize c p.state = s at hg ⊢
    cases hg with
    | outside he =>
      obtain ⟨r, rfl⟩ := he
      exact .inl ⟨f, hf, hl, rfl⟩
    | aboard he =>
      obtain ⟨r, rfl⟩ := he
      refine (onList_part h hst hm hx hn hf hl).imp_right fun ⟨hc, ho⟩ => ?_
      exact ⟨i, .inr rfl, hc, not_pending_update i fun q hq => absurd hq (by simp), ho⟩

omit [Clock ρ] [Journal ρ] [DecidableEq ι] in
/-- A step of a caller leaves no flight without members. -/
theorem attended_flies {N : Nat → Prop} {s s' : Sky ι ρ} {i : ι} {x z : Stage ρ}
    (h : Inv keys ttl s stages) (ha : s.flights.Attended N) (hi : stages i = some x)
    (hf : Flies inner load ttl i (keys i) s x z s') : s'.flights.Attended N := by
  have elsewhere (he : Elsewhere s s') : s'.flights.Attended N := by
    obtain ⟨r, rfl⟩ := he
    exact ha
  have settled (me : Nat) (o : Answer Value) : (s.flights.settle me o).Attended N :=
    Flights.attended_change ha (fun _ => rfl) (fun _ => rfl) fun f hm =>
      .inl (List.ne_nil_of_mem (Flights.has_iff.mp hm))
  cases hf with
  | look he | load he | put he | refused he => exact elsewhere he
  | join e => exact Flights.attended_join ha (keys i)
  | lineUp me =>
    exact Flights.attended_change ha (fun _ => rfl) (fun _ => rfl) fun _ _ => .inr ⟨rfl, rfl⟩
  | await _ | take _ | lead _ | start _ | failed _ _ | loaded _ _ | offer _ _ => exact ha
  | kept me v => exact settled me (.ok v)
  | settle me o => exact settled me o
  | leave me o =>
    -- Whoever is done leaves a settled flight.
    obtain ⟨g, hr, ho, -⟩ := h.at_stage i _ hi
    refine Flights.attended_part ha fun f hf _ hm hnone => ?_
    obtain rfl := h.sound.apart f hf g hr.mem me hm hr.member
    exact absurd (hnone.symm.trans ho) (by simp)

/-- **What every turn keeps of the flights whose members leave in turn**, and of settled ones. -/
theorem attended_moved {N : Nat → Prop} {t : Turn ι (Around ε)}
    {x : Option (Pool.Event ι (Sky ι ρ) (Answer Value))} {p' : Pool ι (Sky ι ρ) (Answer Value)}
    (h : Inv keys ttl p.state stages) (hst : Staged inner load ttl keys p stages)
    (ha : p.state.flights.Attended N) (hok : ∀ n, N n → InTurn n p t)
    (hm : Pool.Moved (afar effect) p t x p') : p'.state.flights.Attended N := by
  cases hm with
  | still t => exact ha
  | @step i q q' s hq hs =>
    rw [hst i] at hq
    obtain ⟨x, hx, rfl⟩ := Option.map_eq_some_iff.mp hq
    obtain ⟨z, rfl, hf⟩ := flies_of_next? hs
    exact attended_flies h ha hx hf
  | @gone i w c q hq =>
    have hpending : Pending p i := ⟨_, hq, rfl⟩
    rw [hst i] at hq
    obtain ⟨x, hx, hq⟩ := Option.map_eq_some_iff.mp hq
    have hg := givenUp_of_wait hq p.state
    generalize hn : x.number? = n at hg
    generalize c p.state = s at hg ⊢
    cases hg with
    | outside he =>
      obtain ⟨r, rfl⟩ := he
      exact ha
    | @aboard me _ he =>
      obtain ⟨r, rfl⟩ := he
      obtain ⟨g, hr⟩ := rides_of_at (h.at_stage i x hx) hn
      refine Flights.attended_part ha fun f hf hN hm _ => ?_
      obtain rfl := h.sound.apart f hf g hr.mem me hm hr.member
      exact hok f.number hN ⟨hr.joined, hpending⟩ f hf rfl
  | outside e =>
    cases e with
    | rest e => exact ha
    | release me => exact Flights.attended_release ha me

omit [Clock ρ] [DecidableEq ι] in
/-- A flight with members has a current caller. -/
theorem exists_current (h : Inv keys ttl p.state stages)
    (hst : Staged inner load ttl keys p stages) (hm : Manned p.state.flights stages) {f : Flight}
    (hf : f ∈ p.state.flights.flights) (hne : f.members ≠ []) :
    ∃ i, Current p i f.number ∧ keys i = f.key := by
  obtain ⟨m, hmem⟩ := List.exists_mem_of_ne_nil _ hne
  obtain ⟨i, -, -, -, hc, hk⟩ := current_of_member h hst hm hf hmem
  exact ⟨i, hc, hk⟩

theorem tended_of_inv (h : Inv keys ttl p.state stages)
    (hst : Staged inner load ttl keys p stages) (hm : Manned p.state.flights stages)
    {N : Nat → Prop} (ha : p.state.flights.Attended N) : Tended keys effect p := by
  constructor
  case single => exact Flights.countP_isFor_le hm.crewed h.sound
  case shared => exact fun f hf hl ho => exists_current h hst hm hf (ha f hf hl (.inl ho))
  case open_listed =>
    intro i n hc
    obtain ⟨-, m, f, hf, -, -, hmem, hn, hk⟩ := member_of_current h hst hc
    exact ⟨f, hf, hn, hk, fun ho => h.sound.unsettled f hf ho (List.ne_nil_of_mem hmem)⟩
  case retired => exact fun t f hf hl => onList_moved h hst hm (Pool.moved_turn _ p t) hf hl

variable (inner load ttl keys) in
/-- Callers are at their stages, the members of flights are callers, and none of the flights of
these numbers is on the list without them. -/
def Tracked (N : Nat → Prop) (p : Pool ι (Sky ι ρ) (Answer Value)) : Prop :=
  ∃ stages, Inv keys ttl p.state stages ∧ Staged inner load ttl keys p stages ∧
    Manned p.state.flights stages ∧ p.state.flights.Attended N

omit [Clock ρ] [DecidableEq ι] in
theorem tracked_callers (N : Nat → Prop) (r : ρ) :
    Tracked inner load ttl keys N (callers inner load ttl keys r) := by
  refine ⟨_, inv_callers r, fun i => (congrArg some (call_eq inner load ttl i (keys i)) :),
    ⟨Flights.crewed_empty, fun m hm => ?_⟩, fun f hf => absurd hf List.not_mem_nil⟩
  obtain ⟨f, hf, -⟩ := hm
  exact absurd hf List.not_mem_nil

/-- Where callers leave the flights of these numbers in turn. -/
theorem tracked_run {r : ρ} {N : Nat → Prop} {turns : List (Turn ι (Around ε))}
    (hok : ∀ n, N n → Pool.Along (afar effect) (InTurn n) turns (callers inner load ttl keys r)) :
    Tracked inner load ttl keys N ((callers inner load ttl keys r).run (afar effect) turns) := by
  have hall := Pool.along_forall fun n => Pool.along_of_imp (hok n)
  refine Pool.along_induction turns ?_ hall (tracked_callers N r)
  rintro p t x p' - hok ⟨stages, hinv, hst, hman, ha⟩ hm
  obtain ⟨stages', hinv', hst', hman'⟩ := inv_moved_manned ⟨stages, hinv, hst, hman⟩ hm
  exact ⟨stages', hinv', hst', hman', attended_moved hinv hst ha hok hm⟩

/-- **Flights are on the list as long as somebody shares them**, in every order of steps of any
number of callers, each of them given up at any of its waits and letting go of its flight any time
later: one flight for a key, that of every caller whose load is not settled, and none that is
settled and has no caller. A flight whose callers leave it in turn is on the list only as long as it
has one; if all flights are left so, then none is on the list when nobody shares one. -/
theorem run_tended (inner : Cache ρ) (load : Loader ρ) (ttl : Duration) (keys : ι → String)
    (effect : ε → ρ → ρ) (r : ρ) (turns : List (Turn ι (Around ε))) :
    let p₀ := callers inner load ttl keys r
    let p := p₀.run (afar effect) turns
    Tended keys effect p ∧
      (∀ n, Pool.Along (afar effect) (InTurn n) turns p₀ →
        ∀ f ∈ p.state.flights.flights, f.listed = true → f.number = n →
          ∃ i, Current p i n ∧ keys i = f.key) ∧
      ((∀ n, Pool.Along (afar effect) (InTurn n) turns p₀) → (∀ i n, ¬ Current p i n) →
        p.state.flights.inFlight = 0) := by
  intro p₀ p
  refine ⟨?_, fun n hok f hf hl hn => ?_, fun hok hno => ?_⟩
  · have tracked : Tracked inner load ttl keys (fun _ => False) p := tracked_run fun _ h => h.elim
    obtain ⟨stages, hinv, hst, hm, ha⟩ := tracked
    exact tended_of_inv hinv hst hm ha
  · have tracked : Tracked inner load ttl keys (· = n) p := tracked_run fun m hm => hm ▸ hok
    obtain ⟨stages, hinv, hst, hm, ha⟩ := tracked
    exact hn ▸ exists_current hinv hst hm hf (ha f hf hl (.inr hn))
  · have tracked : Tracked inner load ttl keys (fun _ => True) p := tracked_run fun n _ => hok n
    obtain ⟨stages, hinv, hst, hm, ha⟩ := tracked
    refine List.countP_eq_zero.mpr fun f hf hl => ?_
    obtain ⟨i, hc, -⟩ := exists_current hinv hst hm hf (ha f hf hl (.inr trivial))
    exact hno i _ hc

end Callers

/-! ### Two that leave -/

/-- A load that takes five seconds. -/
def fiveSeconds : Loader Session.State := fun _ =>
  .wait (.time 5000) id fun _ => .done (.ok (.bool true))

/-- Two callers of one key. -/
def twoCallers : Pool Bool (Sky Bool Session.State) (Answer Value) :=
  callers (Session.State.memory 0).cache fiveSeconds .zero (fun _ => "k") default

/-- One of them runs the load, and the other one waits for it. -/
def bothAboard : List (Turn Bool (Around Unit)) :=
  List.replicate 6 (.go false) ++ List.replicate 3 (.go true)

/-- The one that runs the load is given up, and lets go before the other one is given up. -/
def oneThenOther : List (Turn Bool (Around Unit)) :=
  [.drop false, .outside (.release 0), .drop true, .outside (.release 1)]

/-- Both are given up before either of them lets go. -/
def bothAtOnce : List (Turn Bool (Around Unit)) :=
  [.drop false, .drop true, .outside (.release 0), .outside (.release 1)]

/-- If one leaves after the other, the flight goes with the second one. -/
theorem run_tended_inTurn :
    (∀ n, Pool.Along (afar fun _ r => r) (InTurn n) (bothAboard ++ oneThenOther) twoCallers) ∧
      ((twoCallers.run (afar fun _ r => r) bothAboard).state.flights.flights.map
        Flight.members) = [[0, 1]] ∧
      (twoCallers.run (afar fun _ r => r) (bothAboard ++ oneThenOther)).state.flights.inFlight =
        0 := by
  have inTurn (n : Nat) :
      Pool.Along (afar fun _ r => r) (InTurn n) (bothAboard ++ oneThenOther) twoCallers := by
    have left (f : Flight) (hf : f.leaving = []) : ∀ g ∈ [f], g.number = n → g.leaving = [] :=
      fun g hg _ => List.mem_singleton.mp hg ▸ hf
    exact ⟨trivial, trivial, trivial, trivial, trivial, trivial, trivial, trivial, trivial,
      fun _ => left _ rfl, trivial, fun _ => left _ rfl, trivial, trivial⟩
  refine ⟨inTurn, rfl, ?_⟩
  obtain ⟨-, -, hidle⟩ := run_tended (Session.State.memory 0).cache fiveSeconds .zero (fun _ => "k")
    (fun (_ : Unit) r => r) default (bothAboard ++ oneThenOther)
  refine hidle inTurn fun i n hc => ?_
  obtain ⟨-, q, hq, -⟩ := hc
  cases i <;> exact nomatch hq

/-- If both are given up at once, their flight stays on the list, and nobody is left. -/
theorem left_at_once :
    let p := twoCallers.run (afar fun _ r => r) (bothAboard ++ bothAtOnce)
    (∀ i, p.threads i = none) ∧ p.state.flights.flights = [.new 0 "k"] ∧
      p.state.flights.inFlight = 1 := by
  refine ⟨fun i => ?_, rfl, rfl⟩
  cases i <;> rfl

end Sky
end LayeredCache
