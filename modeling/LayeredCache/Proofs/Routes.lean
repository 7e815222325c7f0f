import LayeredCache.Http.Server
import LayeredCache.Proofs.JsonText

/-!
# What a request names

The paths of the HTTP front and the bodies that it reads, said without the way in which they are
taken apart.

Results:
* `ofPath?_eq_some_iff`: which paths lead where.
* `SetRequest.read_eq_ok_iff`, `MultiGetRequest.read_eq_ok_iff`: which bodies are requests.
-/

namespace LayeredCache.Http

open Json Json.Form

/-! ## Paths -/

/-- A path segment that can hold a key. -/
structure IsSegment (bs : List UInt8) : Prop where
  nonempty : bs ≠ []
  whole : 0x2F ∉ bs

/-- Where paths lead. -/
inductive Leads : List UInt8 → Route → Prop
  | set : Leads (Route.word "/set") .set
  | multiGet : Leads (Route.word "/mget") .multiGet
  | flush : Leads (Route.word "/flush") .flush
  | health : Leads (Route.word "/health") .health
  | get {key : List UInt8} (h : IsSegment key) : Leads (Route.word "/get/" ++ key) (.get key)
  | delete {key : List UInt8} (h : IsSegment key) : Leads (Route.word "/del/" ++ key) (.delete key)
  | up {key : List UInt8} (h : IsSegment key) : Leads (Route.word "/incr/" ++ key) (.step .up key)
  | down {key : List UInt8} (h : IsSegment key) :
      Leads (Route.word "/decr/" ++ key) (.step .down key)
  | exists {key : List UInt8} (h : IsSegment key) :
      Leads (Route.word "/exists/" ++ key) (.exists key)

theorem not_mem_of_mem_segments {bs w : List UInt8} (h : w ∈ segments bs) : 0x2F ∉ w := by
  unfold segments at h
  induction bs generalizing w with
  | nil =>
    obtain rfl : w = [] := by simpa using h
    exact List.not_mem_nil
  | cons b bs ih =>
    rw [List.splitOn_cons_eq_if_modifyHead] at h
    split at h
    · rcases List.mem_cons.mp h with rfl | h
      · exact List.not_mem_nil
      · exact ih h
    · rename_i hb
      cases hs : bs.splitOn 0x2F with
      | nil => simp [hs] at h
      | cons u us =>
        rw [hs] at ih
        rw [hs, List.modifyHead_cons] at h
        rcases List.mem_cons.mp h with rfl | h
        · have hu := ih List.mem_cons_self
          simp only [List.mem_cons, not_or]
          exact ⟨fun he => hb (by simp [he]), hu⟩
        · exact ih (List.mem_cons_of_mem _ h)

theorem segments_intercalate {ws : List (List UInt8)} (hw : ∀ w ∈ ws, 0x2F ∉ w) (hn : ws ≠ []) :
    segments ([0x2F].intercalate ws) = ws :=
  List.splitOn_intercalate _ hw hn

/-- The segments of a path, and the path of the segments. -/
theorem segments_eq_iff {bs : List UInt8} {ws : List (List UInt8)} (hn : ws ≠ []) :
    segments bs = ws ↔ bs = [0x2F].intercalate ws ∧ ∀ w ∈ ws, 0x2F ∉ w := by
  constructor
  · rintro rfl
    exact ⟨(List.intercalate_splitOn _).symm, fun w => not_mem_of_mem_segments⟩
  · rintro ⟨rfl, hw⟩
    exact segments_intercalate hw hn

theorem pick_eq_some {routes : List (String × Route)} {bs : List UInt8} {x : Route}
    (h : Route.pick routes bs = some x) : ∃ name, (name, x) ∈ routes ∧ Route.word name = bs := by
  obtain ⟨⟨name, y⟩, hf, rfl⟩ := Option.map_eq_some_iff.mp h
  exact ⟨name, List.mem_of_find?_eq_some hf, by simpa using List.find?_some hf⟩

/-- The bytes of the words in paths. -/
theorem word_values :
    Route.word "set" = [0x73, 0x65, 0x74] ∧ Route.word "mget" = [0x6D, 0x67, 0x65, 0x74] ∧
    Route.word "flush" = [0x66, 0x6C, 0x75, 0x73, 0x68] ∧
    Route.word "health" = [0x68, 0x65, 0x61, 0x6C, 0x74, 0x68] ∧
    Route.word "get" = [0x67, 0x65, 0x74] ∧ Route.word "del" = [0x64, 0x65, 0x6C] ∧
    Route.word "incr" = [0x69, 0x6E, 0x63, 0x72] ∧ Route.word "decr" = [0x64, 0x65, 0x63, 0x72] ∧
    Route.word "exists" = [0x65, 0x78, 0x69, 0x73, 0x74, 0x73] := by
  decide +kernel

/-- The bytes of the paths without a key, and of what stands before the key in the others. -/
theorem path_values :
    Route.word "/set" = 0x2F :: Route.word "set" ∧ Route.word "/mget" = 0x2F :: Route.word "mget" ∧
    Route.word "/flush" = 0x2F :: Route.word "flush" ∧
    Route.word "/health" = 0x2F :: Route.word "health" ∧
    Route.word "/get/" = 0x2F :: Route.word "get" ++ [0x2F] ∧
    Route.word "/del/" = 0x2F :: Route.word "del" ++ [0x2F] ∧
    Route.word "/incr/" = 0x2F :: Route.word "incr" ++ [0x2F] ∧
    Route.word "/decr/" = 0x2F :: Route.word "decr" ++ [0x2F] ∧
    Route.word "/exists/" = 0x2F :: Route.word "exists" ++ [0x2F] := by
  decide +kernel

theorem ofPath?_fixed {w : List UInt8} (hw : 0x2F ∉ w) :
    Route.ofPath? (0x2F :: w) = Route.pick Route.fixed w := by
  have hs : segments (0x2F :: w) = [[], w] := by
    rw [segments_eq_iff (by simp)]
    exact ⟨by simp [List.intercalate, List.intersperse], by simpa using hw⟩
  rw [Route.ofPath?, hs]

theorem ofPath?_keyed {w key : List UInt8} (hw : 0x2F ∉ w) (h : IsSegment key) :
    Route.ofPath? (0x2F :: w ++ 0x2F :: key) = Route.pick (Route.keyed key) w := by
  have hs : segments (0x2F :: w ++ 0x2F :: key) = [[], w, key] := by
    rw [segments_eq_iff (by simp)]
    exact ⟨by simp [List.intercalate, List.intersperse], by simpa using ⟨hw, h.whole⟩⟩
  have hk : key.isEmpty = false := by simpa using h.nonempty
  rw [Route.ofPath?, hs]
  simp [hk]

theorem leads_of_ofPath? {path : List UInt8} {x : Route} (h : Route.ofPath? path = some x) :
    Leads path x := by
  obtain ⟨hset, hmget, hflush, hhealth, hget, hdel, hincr, hdecr, hexists⟩ := path_values
  unfold Route.ofPath? at h
  split at h
  · rename_i w hs
    obtain ⟨hp, -⟩ := (segments_eq_iff (by simp)).mp hs
    obtain ⟨name, hm, rfl⟩ := pick_eq_some h
    have hpath : path = 0x2F :: Route.word name := by
      simpa [List.intercalate, List.intersperse] using hp
    simp only [Route.fixed, List.mem_cons, Prod.mk.injEq, List.not_mem_nil, or_false] at hm
    rcases hm with ⟨rfl, rfl⟩ | ⟨rfl, rfl⟩ | ⟨rfl, rfl⟩ | ⟨rfl, rfl⟩
    · rw [hpath, ← hset]; exact .set
    · rw [hpath, ← hmget]; exact .multiGet
    · rw [hpath, ← hflush]; exact .flush
    · rw [hpath, ← hhealth]; exact .health
  · rename_i w key hs
    obtain ⟨hp, hw⟩ := (segments_eq_iff (by simp)).mp hs
    split at h
    · cases h
    · rename_i hk
      have hseg : IsSegment key := ⟨by simpa using hk, hw key (by simp)⟩
      obtain ⟨name, hm, rfl⟩ := pick_eq_some h
      have hpath : path = 0x2F :: Route.word name ++ [0x2F] ++ key := by
        simpa [List.intercalate, List.intersperse] using hp
      simp only [Route.keyed, List.mem_cons, Prod.mk.injEq, List.not_mem_nil, or_false] at hm
      rcases hm with ⟨rfl, rfl⟩ | ⟨rfl, rfl⟩ | ⟨rfl, rfl⟩ | ⟨rfl, rfl⟩ | ⟨rfl, rfl⟩
      · rw [hpath, ← hget]; exact .get hseg
      · rw [hpath, ← hdel]; exact .delete hseg
      · rw [hpath, ← hincr]; exact .up hseg
      · rw [hpath, ← hdecr]; exact .down hseg
      · rw [hpath, ← hexists]; exact .exists hseg
  · cases h

theorem ofPath?_of_leads {path : List UInt8} {x : Route} (h : Leads path x) :
    Route.ofPath? path = some x := by
  obtain ⟨hset, hmget, hflush, hhealth, hget, hdel, hincr, hdecr, hexists⟩ := path_values
  obtain ⟨wset, wmget, wflush, whealth, wget, wdel, wincr, wdecr, wexists⟩ := word_values
  cases h with
  | set =>
    rw [hset, ofPath?_fixed (by rw [wset]; decide)]
    simp [Route.pick, Route.fixed]
  | multiGet =>
    rw [hmget, ofPath?_fixed (by rw [wmget]; decide)]
    simp [Route.pick, Route.fixed, wset, wmget]
  | flush =>
    rw [hflush, ofPath?_fixed (by rw [wflush]; decide)]
    simp [Route.pick, Route.fixed, wset, wmget, wflush]
  | health =>
    rw [hhealth, ofPath?_fixed (by rw [whealth]; decide)]
    simp [Route.pick, Route.fixed, wset, wmget, wflush, whealth]
  | get h =>
    rw [hget, List.append_assoc, List.singleton_append, ofPath?_keyed (by rw [wget]; decide) h]
    simp [Route.pick, Route.keyed]
  | delete h =>
    rw [hdel, List.append_assoc, List.singleton_append, ofPath?_keyed (by rw [wdel]; decide) h]
    simp [Route.pick, Route.keyed, wget, wdel]
  | up h =>
    rw [hincr, List.append_assoc, List.singleton_append, ofPath?_keyed (by rw [wincr]; decide) h]
    simp [Route.pick, Route.keyed, wget, wdel, wincr]
  | down h =>
    rw [hdecr, List.append_assoc, List.singleton_append, ofPath?_keyed (by rw [wdecr]; decide) h]
    simp [Route.pick, Route.keyed, wget, wdel, wincr, wdecr]
  | «exists» h =>
    rw [hexists, List.append_assoc, List.singleton_append,
      ofPath?_keyed (by rw [wexists]; decide) h]
    simp [Route.pick, Route.keyed, wget, wdel, wincr, wdecr, wexists]

/-- **Which paths lead where.** -/
theorem ofPath?_eq_some_iff {path : List UInt8} {x : Route} :
    Route.ofPath? path = some x ↔ Leads path x := ⟨leads_of_ofPath?, ofPath?_of_leads⟩

/-! ## Members -/

/-- The members of that name. -/
def membersNamed (name : String) (ms : List (Option String × Form)) :
    List (Option String × Form) := ms.filter fun m => m.1 = some name

/-- What has been read of a member so far, `got`, and the members to come give `a`: it was read
already and none of that name comes, or exactly one comes and reads as `a`. -/
def Fills {α : Type} (got : Option α) (name : String) (ms : List (Option String × Form))
    (Reads : Form → α → Prop) (a : α) : Prop :=
  got = some a ∧ membersNamed name ms = [] ∨
    got = none ∧ ∃ f, membersNamed name ms = [(some name, f)] ∧ Reads f a

section Fills

variable {α : Type} {got : Option α} {name : String} {ms : List (Option String × Form)}
  {Reads : Form → α → Prop} {a : α}

theorem membersNamed_other {m : Option String × Form} (h : m.1 ≠ some name) :
    membersNamed name (m :: ms) = membersNamed name ms := by
  simp [membersNamed, h]

theorem membersNamed_same (f : Form) :
    membersNamed name ((some name, f) :: ms) = (some name, f) :: membersNamed name ms := by
  simp [membersNamed]

theorem fills_nil : Fills got name [] Reads a ↔ got = some a := by
  simp [Fills, membersNamed]

theorem fills_other {m : Option String × Form} (h : m.1 ≠ some name) :
    Fills got name (m :: ms) Reads a ↔ Fills got name ms Reads a := by
  rw [Fills, Fills, membersNamed_other h]

theorem fills_same {f : Form} :
    Fills got name ((some name, f) :: ms) Reads a ↔
      got = none ∧ ∃ b, Reads f b ∧ Fills (some b) name ms Reads a := by
  simp only [Fills, membersNamed_same]
  constructor
  · rintro (⟨-, h⟩ | ⟨hg, g, hg', hr⟩)
    · cases h
    · obtain ⟨he, hn⟩ := List.cons.inj hg'
      obtain rfl : f = g := (Prod.mk.inj he).2
      exact ⟨hg, a, hr, .inl ⟨rfl, hn⟩⟩
  · rintro ⟨hg, b, hr, ⟨hb, hn⟩ | ⟨hb, -⟩⟩
    · obtain rfl := Option.some.inj hb
      exact .inr ⟨hg, f, by rw [hn], hr⟩
    · cases hb

end Fills

/-- Every member has a name; one that is not asked for is JSON all the same. -/
def Skips (asked : List String) (ms : List (Option String × Form)) : Prop :=
  ∀ m ∈ ms, ∃ name, m.1 = some name ∧ (name ∈ asked ∨ m.2.complete = true)

theorem skips_cons {asked : List String} {k : Option String} {f : Form}
    {ms : List (Option String × Form)} :
    Skips asked ((k, f) :: ms) ↔
      (∃ name, k = some name ∧ (name ∈ asked ∨ f.complete = true)) ∧ Skips asked ms := by
  simp only [Skips, List.mem_cons, forall_eq_or_imp]

theorem finish_eq_ok {closed : Bool} {u : Unit} : finish closed = .ok u ↔ closed = true := by
  cases closed <;> simp [finish]

theorem skip_eq_ok {f : Form} {u : Unit} : f.skip = .ok u ↔ f.complete = true := by
  simp [skip]

theorem readString_eq_ok {f : Form} {s : String} :
    Form.readString f = .ok s ↔ f = .str (some s) := by
  refine ⟨fun h => ?_, fun h => by rw [h]; rfl⟩
  unfold Form.readString at h
  split at h
  · rw [Except.ok.inj h]
  · cases h

/-! ## Set requests -/

/-- The form stands for a time to live: null for none, or whole seconds that fit 64 bits. -/
inductive StandsFor : Form → Option Nat → Prop
  | null : StandsFor .null none
  | secs {l : Literal} {n : Nat} {h : Fits n} (hl : l.number? = some (.whole n h)) :
      StandsFor (.num l) (some n)

theorem readTtl_eq_ok {f : Form} {ttl : Option Nat} :
    SetRequest.readTtl f = .ok ttl ↔ StandsFor f ttl := by
  constructor
  · intro h
    unfold SetRequest.readTtl at h
    split at h
    · rw [← Except.ok.inj h]
      exact .null
    · obtain ⟨⟨n, hn⟩, hr, rfl⟩ := map_eq_ok h
      obtain ⟨l, hf, rfl, hl⟩ := readInt_eq_ok_iff.mp hr
      have h0 : (n.toNat : Int) = n := Int.toNat_of_nonneg hn.1
      have hf' : Fits (n.toNat : Int) := h0.symm ▸ hf
      refine .secs (h := hf') (hl.trans ?_)
      simp [h0]
  · intro h
    cases h with
    | null => rfl
    | @secs l n h hl =>
      have hn : (0 : Int) ≤ n ∧ (n : Int) ≤ 0xffff_ffff_ffff_ffff :=
        ⟨Int.natCast_nonneg n, by have := h.2; omega⟩
      have hr : readInt 0 0xffff_ffff_ffff_ffff (.num l) = .ok ⟨n, hn⟩ :=
        readInt_eq_ok_iff.mpr ⟨l, h, rfl, hl⟩
      rw [SetRequest.readTtl, hr]
      · rfl
      · intro h
        cases h

/-- **The forms of set requests**: an object with a key, a value and at most one time to live in any
order, other members being skipped; or an array of them in this order. -/
inductive SetForm : Form → SetRequest → Prop
  | object {ms : List (Option String × Form)} {r : SetRequest}
      (key : membersNamed "key" ms = [(some "key", .str (some r.key))])
      (value : ∃ f, membersNamed "value" ms = [(some "value", f)] ∧ Value.read 126 f = .ok r.value)
      (ttl : membersNamed "ttl" ms = [] ∧ r.ttl = none ∨
        ∃ f, membersNamed "ttl" ms = [(some "ttl", f)] ∧ StandsFor f r.ttl)
      (rest : Skips ["key", "value", "ttl"] ms) : SetForm (.obj ms true) r
  | pair {key : String} {f : Form} {v : Value} (hv : Value.read 126 f = .ok v) :
      SetForm (.arr [.str (some key), f] true) ⟨key, v, none⟩
  | triple {key : String} {f g : Form} {v : Value} {ttl : Option Nat}
      (hv : Value.read 126 f = .ok v) (ht : StandsFor g ttl) :
      SetForm (.arr [.str (some key), f, g] true) ⟨key, v, ttl⟩

/-- What is still to come of a set request, some of it having been read. -/
structure Completes (p : SetRequest.Parts) (ms : List (Option String × Form)) (r : SetRequest) :
    Prop where
  key : Fills p.key "key" ms (fun f k => f = .str (some k)) r.key
  value : Fills p.value "value" ms (fun f v => Value.read 126 f = .ok v) r.value
  ttl : p.ttl = none ∧ membersNamed "ttl" ms = [] ∧ r.ttl = none ∨
    Fills p.ttl "ttl" ms StandsFor r.ttl
  rest : Skips ["key", "value", "ttl"] ms

section Completes

variable {p : SetRequest.Parts} {ms : List (Option String × Form)} {r : SetRequest} {f : Form}

theorem completes_nil :
    Completes p [] r ↔ p.key = some r.key ∧ p.value = some r.value ∧ p.ttl.join = r.ttl := by
  constructor
  · rintro ⟨hk, hv, ht, -⟩
    refine ⟨fills_nil.mp hk, fills_nil.mp hv, ?_⟩
    rcases ht with ⟨hp, -, hr⟩ | ht
    · rw [hp, hr]
      rfl
    · rw [fills_nil.mp ht]
      rfl
  · rintro ⟨hk, hv, ht⟩
    refine ⟨fills_nil.mpr hk, fills_nil.mpr hv, ?_, by simp [Skips]⟩
    cases hp : p.ttl with
    | none =>
      rw [hp] at ht
      exact .inl ⟨rfl, rfl, ht.symm⟩
    | some ttl =>
      rw [hp] at ht
      exact .inr (fills_nil.mpr (congrArg some ht))

theorem not_completes_unnamed : ¬ Completes p ((none, f) :: ms) r := fun h => by
  obtain ⟨⟨name, hn, -⟩, -⟩ := skips_cons.mp h.rest
  cases hn

theorem completes_key :
    Completes p ((some "key", f) :: ms) r ↔
      p.key = none ∧ ∃ k, f = .str (some k) ∧ Completes { p with key := some k } ms r := by
  constructor
  · rintro ⟨hk, hv, ht, hs⟩
    obtain ⟨hp, k, hf, hk⟩ := fills_same.mp hk
    rw [fills_other (by simp)] at hv ht
    rw [membersNamed_other (by simp)] at ht
    exact ⟨hp, k, hf, hk, hv, ht, (skips_cons.mp hs).2⟩
  · rintro ⟨hp, k, hf, hk, hv, ht, hs⟩
    refine ⟨fills_same.mpr ⟨hp, k, hf, hk⟩, (fills_other (by simp)).mpr hv, ?_,
      skips_cons.mpr ⟨⟨_, rfl, .inl (by simp)⟩, hs⟩⟩
    rwa [membersNamed_other (by simp), fills_other (by simp)]

theorem completes_value :
    Completes p ((some "value", f) :: ms) r ↔
      p.value = none ∧ ∃ v, Value.read 126 f = .ok v ∧
        Completes { p with value := some v } ms r := by
  constructor
  · rintro ⟨hk, hv, ht, hs⟩
    obtain ⟨hp, v, hf, hv⟩ := fills_same.mp hv
    rw [fills_other (by simp)] at hk ht
    rw [membersNamed_other (by simp)] at ht
    exact ⟨hp, v, hf, hk, hv, ht, (skips_cons.mp hs).2⟩
  · rintro ⟨hp, v, hf, hk, hv, ht, hs⟩
    refine ⟨(fills_other (by simp)).mpr hk, fills_same.mpr ⟨hp, v, hf, hv⟩, ?_,
      skips_cons.mpr ⟨⟨_, rfl, .inl (by simp)⟩, hs⟩⟩
    rwa [membersNamed_other (by simp), fills_other (by simp)]

theorem completes_ttl :
    Completes p ((some "ttl", f) :: ms) r ↔
      p.ttl = none ∧ ∃ ttl, StandsFor f ttl ∧ Completes { p with ttl := some ttl } ms r := by
  constructor
  · rintro ⟨hk, hv, ht, hs⟩
    rw [fills_other (by simp)] at hk hv
    rw [membersNamed_same] at ht
    rcases ht with ⟨-, hn, -⟩ | ht
    · cases hn
    · obtain ⟨hp, ttl, hf, ht⟩ := fills_same.mp ht
      exact ⟨hp, ttl, hf, hk, hv, .inr ht, (skips_cons.mp hs).2⟩
  · rintro ⟨hp, ttl, hf, hk, hv, ht, hs⟩
    have ht : Fills (some ttl) "ttl" ms StandsFor r.ttl :=
      ht.resolve_left fun h => nomatch h.1
    exact ⟨(fills_other (by simp)).mpr hk, (fills_other (by simp)).mpr hv,
      .inr (fills_same.mpr ⟨hp, ttl, hf, ht⟩), skips_cons.mpr ⟨⟨_, rfl, .inl (by simp)⟩, hs⟩⟩

theorem completes_other {name : String} (hn : name ∉ ["key", "value", "ttl"]) :
    Completes p ((some name, f) :: ms) r ↔ f.complete = true ∧ Completes p ms r := by
  simp only [List.mem_cons, List.not_mem_nil, or_false, not_or] at hn
  obtain ⟨hkey, hvalue, httl⟩ := hn
  constructor
  · rintro ⟨hk, hv, ht, hs⟩
    rw [fills_other (by simpa using hkey)] at hk
    rw [fills_other (by simpa using hvalue)] at hv
    rw [fills_other (by simpa using httl), membersNamed_other (by simpa using httl)] at ht
    obtain ⟨⟨name', he, h⟩, hs⟩ := skips_cons.mp hs
    obtain rfl := Option.some.inj he
    exact ⟨h.resolve_left (by simp [hkey, hvalue, httl]), hk, hv, ht, hs⟩
  · rintro ⟨hf, hk, hv, ht, hs⟩
    refine ⟨(fills_other (by simpa using hkey)).mpr hk,
      (fills_other (by simpa using hvalue)).mpr hv, ?_, skips_cons.mpr ⟨⟨name, rfl, .inr hf⟩, hs⟩⟩
    rwa [fills_other (by simpa using httl), membersNamed_other (by simpa using httl)]

end Completes

/-- A member that may occur once is refused if it was read already, and read otherwise. -/
theorem once_eq_ok {α β : Type} {got : Option α} {x : Except Reject β} {b : β} :
    (if got.isSome = true then .error .mismatch else x) = .ok b ↔ got = none ∧ x = .ok b := by
  cases got <;> simp

/-- What is built from the parts once every member has been taken. -/
theorem readParts_nil {closed : Bool} {p : SetRequest.Parts} {r : SetRequest} :
    SetRequest.readParts 126 closed p [] = .ok r ↔
      closed = true ∧ p.key = some r.key ∧ p.value = some r.value ∧ p.ttl.join = r.ttl := by
  rw [SetRequest.readParts, bind_eq_ok_iff]
  simp only [finish_eq_ok, exists_and_left, exists_const, and_congr_right_iff]
  intro _
  obtain ⟨key, value, ttl⟩ := r
  cases p.key <;> cases p.value <;> simp [pure, Except.pure, throw, throwThe, MonadExceptOf.throw]

/-- The induction is on the members, with what has been read of them so far. -/
theorem readParts_eq_ok {closed : Bool} {p : SetRequest.Parts}
    {ms : List (Option String × Form)} {r : SetRequest} :
    SetRequest.readParts 126 closed p ms = .ok r ↔ closed = true ∧ Completes p ms r := by
  induction ms generalizing p with
  | nil => rw [completes_nil, readParts_nil]
  | cons m ms ih =>
    obtain ⟨name, f⟩ := m
    unfold SetRequest.readParts
    split
    · simp [not_completes_unnamed]
    · simp only [once_eq_ok, bind_eq_ok_iff, readString_eq_ok, ih, completes_key]
      grind
    · simp only [once_eq_ok, bind_eq_ok_iff, ih, completes_value]
      grind
    · simp only [once_eq_ok, bind_eq_ok_iff, readTtl_eq_ok, ih, completes_ttl]
      grind
    · rename_i name hk hv ht
      rw [completes_other (by simpa using ⟨hk, hv, ht⟩)]
      simp only [bind_eq_ok_iff, skip_eq_ok, ih]
      grind

theorem setForm_of_completes {ms : List (Option String × Form)} {r : SetRequest}
    (h : Completes ⟨none, none, none⟩ ms r) : SetForm (.obj ms true) r := by
  obtain ⟨hk, hv, ht, hs⟩ := h
  obtain ⟨-, _, hk, rfl⟩ := hk.resolve_left fun h => nomatch h.1
  obtain ⟨-, hv⟩ := hv.resolve_left fun h => nomatch h.1
  refine .object hk hv ?_ hs
  rcases ht with ⟨-, hn, hr⟩ | ⟨hp, -⟩ | ⟨-, ht⟩
  · exact .inl ⟨hn, hr⟩
  · cases hp
  · exact .inr ht

theorem readLast_eq_ok {closed : Bool} {fs : List Form} {ttl : Option Nat} :
    SetRequest.readLast closed fs = .ok ttl ↔
      closed = true ∧ (fs = [] ∧ ttl = none ∨ ∃ f, fs = [f] ∧ StandsFor f ttl) := by
  cases fs with
  | nil => cases closed <;> simp [SetRequest.readLast, finish, Except.map, eq_comm]
  | cons f fs =>
    simp only [SetRequest.readLast, bind_eq_ok_iff, readTtl_eq_ok, finish_eq_ok, Bool.and_eq_true,
      List.isEmpty_iff, pure, Except.pure, Except.ok.injEq]
    grind

/-- **Which forms are set requests.** -/
theorem SetRequest.read_eq_ok_iff {f : Form} {r : SetRequest} :
    SetRequest.read f = .ok r ↔ SetForm f r := by
  constructor
  · intro h
    unfold SetRequest.read at h
    split at h
    · obtain ⟨rfl, hc⟩ := readParts_eq_ok.mp h
      exact setForm_of_completes hc
    · split at h
      · cases h
      · obtain ⟨-, -, h⟩ := bind_eq_ok h
        cases h
      · obtain ⟨key, hk, h⟩ := bind_eq_ok h
        obtain ⟨v, hv, h⟩ := bind_eq_ok h
        obtain ⟨ttl, ht, h⟩ := bind_eq_ok h
        rw [readString_eq_ok.mp hk, ← Except.ok.inj h]
        obtain ⟨rfl, ⟨rfl, rfl⟩ | ⟨g, rfl, hg⟩⟩ := readLast_eq_ok.mp ht
        · exact .pair hv
        · exact .triple hv hg
    · cases h
  · rintro (⟨hk, hv, ht, hs⟩ | hv | ⟨hv, ht⟩)
    · refine readParts_eq_ok.mpr ⟨rfl, ⟨.inr ⟨rfl, _, hk, rfl⟩, .inr ⟨rfl, hv⟩, ?_, hs⟩⟩
      exact ht.imp (fun h => ⟨rfl, h⟩) fun h => .inr ⟨rfl, h⟩
    · simp only [SetRequest.read, maxDepth, Nat.reduceSub, bind_eq_ok_iff, readString_eq_ok]
      exact ⟨_, rfl, _, hv, none, readLast_eq_ok.mpr ⟨rfl, .inl ⟨rfl, rfl⟩⟩, rfl⟩
    · simp only [SetRequest.read, maxDepth, Nat.reduceSub, bind_eq_ok_iff, readString_eq_ok]
      exact ⟨_, rfl, _, hv, _, readLast_eq_ok.mpr ⟨rfl, .inr ⟨_, rfl, ht⟩⟩, rfl⟩

/-! ## Batch requests -/

/-- **The forms of batch requests**: an object with a list of keys, other members being skipped; or
an array that holds the list alone. -/
inductive MultiGetForm : Form → List String → Prop
  | object {ms : List (Option String × Form)} {keys : List String}
      (list : membersNamed "keys" ms = [(some "keys", .arr (keys.map fun k => .str (some k)) true)])
      (rest : Skips ["keys"] ms) : MultiGetForm (.obj ms true) keys
  | array (keys : List String) :
      MultiGetForm (.arr [.arr (keys.map fun k => .str (some k)) true] true) keys

theorem readEach_eq_ok {closed : Bool} {fs : List Form} {ks : List String} :
    readEach readString closed fs = .ok ks ↔
      closed = true ∧ fs = ks.map fun k => .str (some k) := by
  induction fs generalizing ks with
  | nil =>
    cases closed <;>
      simp [readEach, finish, Except.map, List.map_eq_nil_iff, eq_comm (a := [])]
  | cons f fs ih =>
    simp only [readEach, bind_eq_ok_iff, readString_eq_ok, ih, pure, Except.pure, Except.ok.injEq]
    constructor
    · rintro ⟨k, rfl, ks', ⟨hc, rfl⟩, rfl⟩
      exact ⟨hc, rfl⟩
    · rintro ⟨hc, h⟩
      cases ks with
      | nil => cases h
      | cons k ks =>
        obtain ⟨hf, hs⟩ := List.cons.inj h
        exact ⟨k, hf, ks, ⟨hc, hs⟩, rfl⟩

theorem readKeys_eq_ok {f : Form} {ks : List String} :
    readList 126 readString f = .ok ks ↔ f = .arr (ks.map fun k => .str (some k)) true := by
  cases f with
  | arr items closed => simp [readList, readEach_eq_ok, and_comm]
  | _ => simp [readList]

/-- The induction is on the members, with the list if it was read already. -/
theorem readKeyParts_eq_ok {closed : Bool} {got : Option (List String)}
    {ms : List (Option String × Form)} {r : MultiGetRequest} :
    MultiGetRequest.readParts closed got ms = .ok r ↔
      closed = true ∧
      Fills got "keys" ms (fun f ks => f = .arr (ks.map fun k => .str (some k)) true) r.keys ∧
      Skips ["keys"] ms := by
  induction ms generalizing got with
  | nil =>
    unfold MultiGetRequest.readParts
    rw [bind_eq_ok_iff]
    simp only [finish_eq_ok, exists_and_left, exists_const, and_congr_right_iff]
    intro _
    cases r
    cases got <;>
      simp [fills_nil, Skips, pure, Except.pure, throw, throwThe, MonadExceptOf.throw]
  | cons m ms ih =>
    obtain ⟨name, f⟩ := m
    unfold MultiGetRequest.readParts
    rw [skips_cons]
    split
    · simp
    · simp only [once_eq_ok, bind_eq_ok_iff, fills_same, maxDepth, Nat.reduceSub, readKeys_eq_ok,
        ih]
      grind
    · rename_i name hk
      rw [fills_other (by simpa using hk)]
      simp only [bind_eq_ok_iff, skip_eq_ok, ih]
      grind

/-- **Which forms are batch requests.** -/
theorem MultiGetRequest.read_eq_ok_iff {f : Form} {r : MultiGetRequest} :
    MultiGetRequest.read f = .ok r ↔ MultiGetForm f r.keys := by
  constructor
  · intro h
    unfold MultiGetRequest.read at h
    split at h
    · obtain ⟨rfl, hf, hs⟩ := readKeyParts_eq_ok.mp h
      obtain ⟨-, _, hl, rfl⟩ := hf.resolve_left fun h => nomatch h.1
      exact .object hl hs
    · cases h
    · obtain ⟨ks, hk, hks⟩ := bind_eq_ok h
      obtain ⟨_, hc, he⟩ := bind_eq_ok hks
      obtain ⟨rfl, hr⟩ := (Bool.and_eq_true ..).mp (finish_eq_ok.mp hc)
      rw [readKeys_eq_ok.mp hk, List.isEmpty_iff.mp hr, ← Except.ok.inj he]
      exact .array ks
    · cases h
  · obtain ⟨keys⟩ := r
    rintro (⟨hl, hs⟩ | _)
    · exact readKeyParts_eq_ok.mpr ⟨rfl, .inr ⟨rfl, _, hl, rfl⟩, hs⟩
    · simp only [MultiGetRequest.read, maxDepth, Nat.reduceSub, bind_eq_ok_iff, finish_eq_ok]
      exact ⟨keys, readKeys_eq_ok.mpr rfl, (), rfl, rfl⟩

end LayeredCache.Http
