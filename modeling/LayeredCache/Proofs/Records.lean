import Mathlib.Data.List.Forall2
import LayeredCache.Engine.Config
import LayeredCache.Proofs.Routes
import LayeredCache.Proofs.ValueText

/-!
# Records

Four records are decoded from texts: values, the two requests that have a body, and engine
configurations. Each is an object of its members, or an array of their contents. The decoders take
one member after another, and one of them keeps contents whose type is not known yet; what they
accept is said here without any order.

Results:
* `Value.read_eq_ok_iff`, `EngineConfig.read_eq_ok_iff`: which forms are values and configurations.
* `decode_members`: what a text is decoded as depends on the contents of the known members alone.
-/

namespace LayeredCache

open Json Json.Form Http

/-! ## Values -/

namespace Value

/-- **The forms of values**: an object with a type and contents of that type in either order, other
members being skipped; or an array of the two. -/
inductive ValueForm (depth : Nat) : Form → Value → Prop
  | object {ms : List (Option String × Form)} {g f : Form} {t : ValueType} {v : Value}
      (type : membersNamed "type" ms = [(some "type", g)]) (ht : readType depth g = .ok t)
      (value : membersNamed "value" ms = [(some "value", f)]) (hv : readContent depth t f = .ok v)
      (rest : Skips ["type", "value"] ms) : ValueForm depth (.obj ms true) v
  | array {g f : Form} {t : ValueType} {v : Value} (ht : readType depth g = .ok t)
      (hv : readContent depth t f = .ok v) : ValueForm depth (.arr [g, f] true) v

/-- Whole numbers in an array are JSON by themselves. -/
theorem readItems_of_readEach {low high : Int} {closed : Bool} {fs : List Form} (depth : Nat) :
    ∀ {ns}, readEach (readInt low high) closed fs = .ok ns →
      ∃ js, readItems fs closed depth = .ok js := by
  induction fs with
  | nil =>
    intro ns h
    obtain ⟨u, hu, -⟩ := map_eq_ok h
    exact ⟨[], by rw [readItems, hu]; rfl⟩
  | cons f fs ih =>
    intro ns h
    obtain ⟨n, hn, h⟩ := bind_eq_ok h
    obtain ⟨ns', hns, -⟩ := bind_eq_ok h
    obtain ⟨l, hl, rfl, hnum⟩ := readInt_eq_ok_iff.mp hn
    obtain ⟨js, hjs⟩ := ih hns
    exact ⟨_, by rw [readItems, readJson, hnum, hjs]; rfl⟩

/-- **Contents of any type are JSON by themselves.** So nothing is lost if they are read as such
before their type is known. -/
theorem readJson_of_readContent {depth : Nat} {t : ValueType} {f : Form} {v : Value}
    (h : readContent depth t f = .ok v) : ∃ j, readJson f depth = .ok j := by
  cases t with
  | int k =>
    obtain ⟨n, hn, -⟩ := map_eq_ok h
    obtain ⟨l, hl, rfl, hnum⟩ := readInt_eq_ok_iff.mp hn
    exact ⟨_, by rw [readJson, hnum]⟩
  | bool =>
    obtain ⟨b, hb, -⟩ := map_eq_ok h
    unfold readBool at hb
    split at hb
    · exact ⟨_, readJson.eq_2 ..⟩
    · cases hb
  | str =>
    obtain ⟨s, hs, -⟩ := map_eq_ok h
    rw [readString_eq_ok.mp hs]
    exact ⟨.str s, by rw [readJson]⟩
  | bytes =>
    obtain ⟨ns, hns, -⟩ := map_eq_ok h
    unfold readList at hns
    split at hns
    · split at hns
      · cases hns
      · obtain ⟨depth, rfl⟩ := Nat.exists_eq_succ_of_ne_zero ‹depth ≠ 0›
        obtain ⟨js, hjs⟩ := readItems_of_readEach depth hns
        exact ⟨.arr js, by rw [readJson, hjs]; rfl⟩
    · cases hns
  | json =>
    obtain ⟨j, hj, -⟩ := map_eq_ok h
    exact ⟨j, hj⟩

/-- The parts stand for a type and contents, either of which may not have been read yet. -/
inductive Knows (depth : Nat) : Parts → Option ValueType → Option Form → Prop
  | nothing : Knows depth .nothing none none
  | type (t : ValueType) : Knows depth (.type t) (some t) none
  | content {f : Form} {j : Json} (h : readJson f depth = .ok j) :
      Knows depth (.content f) none (some f)
  | whole {t : ValueType} {f : Form} {v : Value} (h : readContent depth t f = .ok v) :
      Knows depth (.whole v) (some t) (some f)

section Knows

variable {depth : Nat} {p q : Parts} {t? : Option ValueType} {f? : Option Form}

/-- Parts of what can be read in the end can be known. -/
theorem exists_knows {t : ValueType} {f : Form} {v : Value} (h : readContent depth t f = .ok v)
    (ht : ∀ u ∈ t?, u = t) (hf : ∀ g ∈ f?, g = f) : ∃ p, Knows depth p t? f? := by
  obtain ⟨j, hj⟩ := readJson_of_readContent h
  cases t? with
  | none =>
    cases f? with
    | none => exact ⟨_, .nothing⟩
    | some g =>
      obtain rfl := hf g rfl
      exact ⟨_, .content hj⟩
  | some u =>
    obtain rfl := ht u rfl
    cases f? with
    | none => exact ⟨_, .type u⟩
    | some g =>
      obtain rfl := hf g rfl
      exact ⟨_, .whole h⟩

theorem addType_eq_ok (h : Knows depth p t? f?) {g : Form} :
    p.addType depth g = .ok q ↔
      t? = none ∧ ∃ t, readType depth g = .ok t ∧ Knows depth q (some t) f? := by
  constructor
  · intro ha
    cases h with
    | nothing =>
      obtain ⟨t, ht, rfl⟩ := map_eq_ok ha
      exact ⟨rfl, t, ht, .type t⟩
    | content hj =>
      obtain ⟨t, ht, ha⟩ := bind_eq_ok ha
      obtain ⟨v, hv, ha⟩ := bind_eq_ok ha
      obtain rfl := Except.ok.inj ha
      exact ⟨rfl, t, ht, .whole hv⟩
    | type => cases ha
    | whole => cases ha
  · rintro ⟨rfl, t, ht, hq⟩
    cases h with
    | nothing =>
      cases hq
      rw [Parts.addType, ht]
      rfl
    | content hj =>
      cases hq with
      | whole hv =>
        rw [Parts.addType, ht]
        change readContent depth t _ >>= _ = _
        rw [hv]
        rfl

theorem addContent_eq_ok (h : Knows depth p t? f?) {g : Form} :
    p.addContent depth g = .ok q ↔ f? = none ∧ Knows depth q t? (some g) := by
  constructor
  · intro ha
    cases h with
    | nothing =>
      obtain ⟨j, hj, rfl⟩ := map_eq_ok ha
      exact ⟨rfl, .content hj⟩
    | type t =>
      obtain ⟨v, hv, rfl⟩ := map_eq_ok ha
      exact ⟨rfl, .whole hv⟩
    | content => cases ha
    | whole => cases ha
  · rintro ⟨rfl, hq⟩
    cases h with
    | nothing =>
      cases hq with
      | content hj =>
        rw [Parts.addContent, hj]
        rfl
    | type t =>
      cases hq with
      | whole hv =>
        rw [Parts.addContent, hv]
        rfl

end Knows

/-- What has been read of a value and the members to come are a value. -/
structure Completes (depth : Nat) (t? : Option ValueType) (f? : Option Form)
    (ms : List (Option String × Form)) (t : ValueType) (f : Form) (v : Value) : Prop where
  type : Http.Fills t? "type" ms (fun g t => readType depth g = .ok t) t
  value : Http.Fills f? "value" ms (fun g f => g = f) f
  contents : readContent depth t f = .ok v
  rest : Skips ["type", "value"] ms

section Completes

variable {depth : Nat} {t? : Option ValueType} {f? : Option Form}
  {ms : List (Option String × Form)} {t : ValueType} {f g : Form} {v : Value}

theorem completes_nil :
    Completes depth t? f? [] t f v ↔ t? = some t ∧ f? = some f ∧ readContent depth t f = .ok v := by
  constructor
  · rintro ⟨ht, hf, hv, -⟩
    exact ⟨fills_nil.mp ht, fills_nil.mp hf, hv⟩
  · rintro ⟨ht, hf, hv⟩
    exact ⟨fills_nil.mpr ht, fills_nil.mpr hf, hv, by simp [Skips]⟩

theorem completes_type :
    Completes depth t? f? ((some "type", g) :: ms) t f v ↔
      t? = none ∧ ∃ u, readType depth g = .ok u ∧ Completes depth (some u) f? ms t f v := by
  constructor
  · rintro ⟨ht, hf, hv, hs⟩
    obtain ⟨hn, u, hu, ht⟩ := fills_same.mp ht
    exact ⟨hn, u, hu, ht, (fills_other (by simp)).mp hf, hv, (skips_cons.mp hs).2⟩
  · rintro ⟨hn, u, hu, ht, hf, hv, hs⟩
    exact ⟨fills_same.mpr ⟨hn, u, hu, ht⟩, (fills_other (by simp)).mpr hf, hv,
      skips_cons.mpr ⟨⟨_, rfl, .inl (by simp)⟩, hs⟩⟩

theorem completes_value :
    Completes depth t? f? ((some "value", g) :: ms) t f v ↔
      f? = none ∧ Completes depth t? (some g) ms t f v := by
  constructor
  · rintro ⟨ht, hf, hv, hs⟩
    obtain ⟨hn, _, rfl, hf⟩ := fills_same.mp hf
    exact ⟨hn, (fills_other (by simp)).mp ht, hf, hv, (skips_cons.mp hs).2⟩
  · rintro ⟨hn, ht, hf, hv, hs⟩
    exact ⟨(fills_other (by simp)).mpr ht, fills_same.mpr ⟨hn, g, rfl, hf⟩, hv,
      skips_cons.mpr ⟨⟨_, rfl, .inl (by simp)⟩, hs⟩⟩

theorem completes_other {name : String} (hn : name ∉ ["type", "value"]) :
    Completes depth t? f? ((some name, g) :: ms) t f v ↔
      g.complete = true ∧ Completes depth t? f? ms t f v := by
  have ht : (some name, g).1 ≠ some "type" := fun h => hn (by simp [Option.some.inj h])
  have hf : (some name, g).1 ≠ some "value" := fun h => hn (by simp [Option.some.inj h])
  constructor
  · rintro ⟨h₁, h₂, hv, hs⟩
    obtain ⟨⟨_, he, h⟩, hs⟩ := skips_cons.mp hs
    obtain rfl := Option.some.inj he
    exact ⟨h.resolve_left hn, (fills_other ht).mp h₁, (fills_other hf).mp h₂, hv, hs⟩
  · rintro ⟨hg, h₁, h₂, hv, hs⟩
    exact ⟨(fills_other ht).mpr h₁, (fills_other hf).mpr h₂, hv,
      skips_cons.mpr ⟨⟨name, rfl, .inr hg⟩, hs⟩⟩

theorem not_completes_unnamed : ¬ Completes depth t? f? ((none, g) :: ms) t f v := fun h => by
  obtain ⟨⟨name, hn, -⟩, -⟩ := skips_cons.mp h.rest
  cases hn

/-- What was read already is what the value is made of. -/
theorem Completes.knows (h : Completes depth t? f? ms t f v) : ∃ p, Knows depth p t? f? := by
  refine exists_knows h.contents (fun u hu => ?_) fun g hg => ?_
  · rcases h.type with ⟨ht, -⟩ | ⟨ht, -⟩
    · exact Option.some.inj (hu.symm.trans ht)
    · cases hu.symm.trans ht
  · rcases h.value with ⟨hf, -⟩ | ⟨hf, -⟩
    · exact Option.some.inj (hg.symm.trans hf)
    · cases hg.symm.trans hf

end Completes

/-- The value of the parts once every member has been taken. -/
theorem readParts_nil {depth : Nat} {closed : Bool} {p : Parts} {t? : Option ValueType}
    {f? : Option Form} {v : Value} (h : Knows depth p t? f?) :
    readParts depth closed p [] = .ok v ↔
      closed = true ∧ ∃ t f, Completes depth t? f? [] t f v := by
  simp only [completes_nil]
  cases h with
  | @whole t f w hw =>
    simp only [Option.some.injEq, exists_and_left, exists_eq_left', hw, Except.ok.injEq]
    rw [readParts]
    cases closed <;> simp [finish, Except.map]
  | nothing => simp [readParts]
  | type => simp [readParts]
  | content => simp [readParts]

/-- The induction is on the members, with what has been read of them so far. -/
theorem readParts_eq_ok {depth : Nat} {closed : Bool} {p : Parts} {t? : Option ValueType}
    {f? : Option Form} {ms : List (Option String × Form)} {v : Value} (h : Knows depth p t? f?) :
    readParts depth closed p ms = .ok v ↔
      closed = true ∧ ∃ t f, Completes depth t? f? ms t f v := by
  induction ms generalizing p t? f? with
  | nil => exact readParts_nil h
  | cons m ms ih =>
    obtain ⟨name, g⟩ := m
    rcases name with _ | name
    · simp [readParts, not_completes_unnamed]
    by_cases ht : name = "type"
    · subst ht
      simp only [readParts, bind_eq_ok_iff, addType_eq_ok h, completes_type]
      constructor
      · rintro ⟨q, ⟨hn, u, hu, hq⟩, hr⟩
        obtain ⟨hc, t, f, hr⟩ := (ih hq).mp hr
        exact ⟨hc, t, f, hn, u, hu, hr⟩
      · rintro ⟨hc, t, f, hn, u, hu, hr⟩
        obtain ⟨q, hq⟩ := hr.knows
        exact ⟨q, ⟨hn, u, hu, hq⟩, (ih hq).mpr ⟨hc, t, f, hr⟩⟩
    by_cases hf : name = "value"
    · subst hf
      simp only [readParts, bind_eq_ok_iff, addContent_eq_ok h, completes_value]
      constructor
      · rintro ⟨q, ⟨hn, hq⟩, hr⟩
        obtain ⟨hc, t, f, hr⟩ := (ih hq).mp hr
        exact ⟨hc, t, f, hn, hr⟩
      · rintro ⟨hc, t, f, hn, hr⟩
        obtain ⟨q, hq⟩ := hr.knows
        exact ⟨q, ⟨hn, hq⟩, (ih hq).mpr ⟨hc, t, f, hr⟩⟩
    have hn : name ∉ ["type", "value"] := by simpa using ⟨ht, hf⟩
    rw [readParts]
    · simp only [bind_eq_ok_iff, skip_eq_ok, ih h, completes_other hn]
      grind
    · exact fun h => ht h
    · exact fun h => hf h

/-- **Which forms are values.** -/
theorem read_eq_ok_iff {depth : Nat} {f : Form} {v : Value} :
    Value.read (depth + 1) f = .ok v ↔ ValueForm depth f v := by
  constructor
  · intro h
    unfold Value.read at h
    split at h
    · obtain ⟨rfl, t, f, ht, hf, hv, hs⟩ := (readParts_eq_ok .nothing).mp h
      obtain ⟨-, g, hg, ht⟩ := ht.resolve_left fun h => nomatch h.1
      obtain ⟨-, _, hf', rfl⟩ := hf.resolve_left fun h => nomatch h.1
      exact .object hg ht hf' hv hs
    · rw [if_neg (Nat.succ_ne_zero depth)] at h
      split at h
      · cases h
      · obtain ⟨-, -, h⟩ := bind_eq_ok h
        cases h
      · obtain ⟨t, ht, h⟩ := bind_eq_ok h
        obtain ⟨w, hw, h⟩ := bind_eq_ok h
        obtain ⟨u, hu, h⟩ := bind_eq_ok h
        obtain rfl := Except.ok.inj h
        obtain ⟨rfl, he⟩ := (Bool.and_eq_true ..).mp (finish_eq_ok.mp hu)
        rw [List.isEmpty_iff.mp he]
        exact .array ht hw
    · cases h
  · rintro (⟨hg, ht, hf, hv, hs⟩ | ⟨ht, hv⟩)
    · exact (readParts_eq_ok .nothing).mpr
        ⟨rfl, _, _, .inr ⟨rfl, _, hg, ht⟩, .inr ⟨rfl, _, hf, rfl⟩, hv, hs⟩
    · simp only [Value.read, Nat.succ_ne_zero, if_false, Nat.add_sub_cancel, bind_eq_ok_iff,
        finish_eq_ok]
      exact ⟨_, ht, _, hv, (), rfl, rfl⟩

end Value

/-! ## Engine configurations -/

namespace EngineConfig

/-- **The forms of configurations**: an object with at most one interval, other members being
skipped; or an array that holds at most an interval. -/
inductive ConfigForm : Form → EngineConfig → Prop
  | object {ms : List (Option String × Form)} {c : EngineConfig}
      (interval : membersNamed "interval" ms = [] ∧ c = standard ∨
        ∃ f, membersNamed "interval" ms = [(some "interval", f)] ∧
          readInterval f = .ok c.interval)
      (rest : Skips ["interval"] ms) : ConfigForm (.obj ms true) c
  | empty : ConfigForm (.arr [] true) standard
  | single {f : Form} {n : Int} (h : readInterval f = .ok n) : ConfigForm (.arr [f] true) ⟨n⟩

/-- The induction is on the members, with the interval if it was read already. -/
theorem readMembers_eq_ok {closed : Bool} {seen : Option Int} {ms : List (Option String × Form)}
    {c : EngineConfig} :
    readMembers closed seen ms = .ok c ↔
      closed = true ∧
      (seen = none ∧ membersNamed "interval" ms = [] ∧ c = standard ∨
        Http.Fills seen "interval" ms (fun f n => readInterval f = .ok n) c.interval) ∧
      Skips ["interval"] ms := by
  induction ms generalizing seen with
  | nil =>
    obtain ⟨n⟩ := c
    rw [fills_nil]
    cases closed <;> cases seen <;>
      simp [readMembers, finish, Except.map, Skips, membersNamed, eq_comm (a := standard)]
  | cons m ms ih =>
    obtain ⟨name, f⟩ := m
    unfold readMembers
    rw [skips_cons]
    split
    · simp
    · simp only [once_eq_ok, bind_eq_ok_iff, fills_same, membersNamed_same, ih]
      grind
    · rename_i name hk
      have hne : (some name, f).1 ≠ some "interval" := by simpa using hk
      rw [fills_other hne, membersNamed_other hne]
      simp only [bind_eq_ok_iff, skip_eq_ok, ih]
      grind

/-- **Which forms are configurations.** -/
theorem read_eq_ok_iff {f : Form} {c : EngineConfig} :
    EngineConfig.read f = .ok c ↔ ConfigForm f c := by
  constructor
  · intro h
    unfold EngineConfig.read at h
    split at h
    · obtain ⟨rfl, hi, hs⟩ := readMembers_eq_ok.mp h
      refine .object ?_ hs
      rcases hi with ⟨-, hi⟩ | ⟨hn, -⟩ | ⟨-, hi⟩
      · exact .inl hi
      · cases hn
      · exact .inr hi
    · obtain ⟨u, hu, rfl⟩ := map_eq_ok h
      rw [finish_eq_ok.mp hu]
      exact .empty
    · obtain ⟨n, hn, h⟩ := bind_eq_ok h
      obtain ⟨u, hu, h⟩ := bind_eq_ok h
      obtain rfl := Except.ok.inj h
      obtain ⟨rfl, he⟩ := (Bool.and_eq_true ..).mp (finish_eq_ok.mp hu)
      rw [List.isEmpty_iff.mp he]
      exact .single hn
    · cases h
  · rintro (⟨hi, hs⟩ | _ | hn)
    · refine readMembers_eq_ok.mpr ⟨rfl, ?_, hs⟩
      exact hi.imp (fun h => ⟨rfl, h⟩) fun h => .inr ⟨rfl, h⟩
    · rfl
    · simp only [EngineConfig.read, bind_eq_ok_iff, finish_eq_ok]
      exact ⟨_, hn, (), rfl, rfl⟩

end EngineConfig

/-! ## Records -/

/-- What texts are decoded as. -/
inductive Record where
  | value
  | setRequest
  | multiGetRequest
  | engineConfig

namespace Record

/-- The members that the record knows, in the order in which it declares them. -/
def fields : Record → List String
  | .value => ["type", "value"]
  | .setRequest => ["key", "value", "ttl"]
  | .multiGetRequest => ["keys"]
  | .engineConfig => ["interval"]

def Result : Record → Type
  | .value => Value
  | .setRequest => SetRequest
  | .multiGetRequest => MultiGetRequest
  | .engineConfig => EngineConfig

/-- What a text is decoded as, if it is accepted. -/
def decode : (r : Record) → String → Option r.Result
  | .value, s => (Value.parse s).toOption
  | .setRequest, s => ((Document.ofString s).read SetRequest.read).toOption
  | .multiGetRequest, s => ((Document.ofString s).read MultiGetRequest.read).toOption
  | .engineConfig, s => (EngineConfig.parse s).toOption

/-- What the forms of the record stand for. -/
def Reads : (r : Record) → Form → r.Result → Prop
  | .value => Value.ValueForm 126
  | .setRequest => SetForm
  | .multiGetRequest => fun f r => MultiGetForm f r.keys
  | .engineConfig => EngineConfig.ConfigForm

theorem toOption_eq_some {ε α : Type} {x : Except ε α} {a : α} :
    x.toOption = some a ↔ x = .ok a := by
  cases x <;> simp [Except.toOption]

theorem isBlank_digit {c : Char} (h : c.isDigit = true) : Text.isBlank c = false := by
  have hc : '0' ≤ c ∧ c ≤ '9' := by simpa [Char.isDigit, Char.le_def] using h
  have h0 : 48 ≤ c.toNat := hc.1
  have h9 : c.toNat ≤ 57 := hc.2
  simp only [Text.isBlank]
  grind

/-- A text of the grammar is not blank. -/
theorem exists_not_blank {cs : List Char} {f : Form} (h : Spells cs f) :
    ∃ c ∈ cs, Text.isBlank c = false := by
  induction h with
  | pad _ _ _ ih =>
    obtain ⟨c, hc, hb⟩ := ih
    exact ⟨c, by simp [hc], hb⟩
  | num w =>
    obtain ⟨c, cs, hc⟩ := List.exists_cons_of_ne_nil w.areDigits.1
    refine ⟨c, ?_, isBlank_digit (w.areDigits.2 c (hc ▸ List.mem_cons_self))⟩
    unfold NumberText.text NumberText.size
    rw [hc]
    split <;> simp
  | str hs =>
    cases hs
    exact ⟨_, List.mem_cons_self, rfl⟩
  | _ => exact ⟨_, List.mem_cons_self, rfl⟩

theorem trim_ne_nil {cs : List Char} (h : ∃ c ∈ cs, Text.isBlank c = false) :
    Text.trim cs ≠ [] := by
  obtain ⟨c, hc, hb⟩ := h
  have keeps {cs : List Char} (hc : c ∈ cs) : c ∈ Text.trimStart cs := by
    induction cs with
    | nil => cases hc
    | cons d cs ih =>
      unfold Text.trimStart
      rw [List.dropWhile_cons]
      split
      · rename_i hd
        rcases List.mem_cons.mp hc with rfl | hc
        · rw [hb] at hd
          cases hd
        · exact ih hc
      · exact hc
  refine List.ne_nil_of_mem (a := c) ?_
  unfold Text.trim
  rw [List.mem_reverse]
  exact keeps (List.mem_reverse.mpr (keeps hc))

/-- A text of the grammar is read as its form is. -/
theorem toOption_read_eq_some {α : Type} {read : Form → Except Reject α}
    {Stands : Form → α → Prop} (hread : ∀ {f a}, read f = .ok a ↔ Stands f a) {s : String}
    {f : Form} (h : Spells s.toList f) {a : α} :
    ((Document.ofString s).read read).toOption = some a ↔ Stands f a := by
  rw [toOption_eq_some, ofString_of_spells h, Document.read, bind_eq_ok_iff, ← hread]
  constructor
  · rintro ⟨b, hb, he⟩
    exact hb.trans he
  · intro ha
    exact ⟨a, ha, rfl⟩

theorem toOption_parse {s : String} {f : Form} (h : Spells s.toList f) :
    (EngineConfig.parse s).toOption = ((Document.ofString s).read EngineConfig.read).toOption := by
  have hb : ¬ (Text.trim s.toList).isEmpty = true := by
    simpa using trim_ne_nil (exists_not_blank h)
  unfold EngineConfig.parse
  rw [if_neg hb]
  cases (Document.ofString s).read EngineConfig.read <;> rfl

/-- **Decoding a text of the grammar** goes by the form that it writes. -/
theorem decode_eq_some_iff {r : Record} {s : String} {f : Form} (h : Spells s.toList f)
    {a : r.Result} : r.decode s = some a ↔ r.Reads f a := by
  cases r with
  | value => exact toOption_read_eq_some Value.read_eq_ok_iff h
  | setRequest => exact toOption_read_eq_some SetRequest.read_eq_ok_iff h
  | multiGetRequest => exact toOption_read_eq_some MultiGetRequest.read_eq_ok_iff h
  | engineConfig =>
    refine (iff_of_eq (congrArg (· = some a) (toOption_parse h))).trans ?_
    exact toOption_read_eq_some EngineConfig.read_eq_ok_iff h

/-! ## Members in any order -/

/-- The text is one object of these members in this order. -/
def ObjectText (s : String) (ms : List (String × Form)) : Prop :=
  Spells s.toList (.obj (ms.map fun m => (some m.1, m.2)) true)

/-- The text is one array of these items. -/
def ArrayText (s : String) (fs : List Form) : Prop := Spells s.toList (.arr fs true)

/-- What the members of that name hold. -/
def contents (name : String) (ms : List (String × Form)) : List Form :=
  (ms.filter fun m => m.1 = name).map Prod.snd

theorem membersNamed_map (name : String) (ms : List (String × Form)) :
    membersNamed name (ms.map fun m => (some m.1, m.2)) =
      (contents name ms).map fun f => (some name, f) := by
  induction ms with
  | nil => rfl
  | cons m ms ih =>
    by_cases h : m.1 = name
    · subst h
      rw [List.map_cons, membersNamed_same, ih]
      simp [contents]
    · rw [List.map_cons, membersNamed_other (by simpa using h), ih]
      simp [contents, h]

theorem skips_of_objectText {s : String} {ms : List (String × Form)} (h : ObjectText s ms)
    (asked : List String) : Skips asked (ms.map fun m => (some m.1, m.2)) := by
  intro m hm
  obtain ⟨n, -, rfl⟩ := List.mem_map.mp hm
  have hc := complete_of_spells h
  rw [Form.complete, Bool.true_and, completeMembers_iff] at hc
  exact ⟨n.1, rfl, .inr (hc _ hm)⟩

/-- Objects with the same contents for the known members stand for the same. -/
theorem reads_object {r : Record} {ms ns : List (Option String × Form)} {a : r.Result}
    (h : ∀ name ∈ r.fields, membersNamed name ms = membersNamed name ns)
    (hs : Skips r.fields ns) (ha : r.Reads (.obj ms true) a) : r.Reads (.obj ns true) a := by
  cases r with
  | value =>
    cases ha with
    | object ht hu hf hv =>
      exact .object (h "type" (by simp [fields]) ▸ ht) hu (h "value" (by simp [fields]) ▸ hf) hv hs
  | setRequest =>
    cases ha with
    | object hk hv ht =>
      rw [h "key" (by simp [fields])] at hk
      rw [h "value" (by simp [fields])] at hv
      rw [h "ttl" (by simp [fields])] at ht
      exact .object hk hv ht hs
  | multiGetRequest =>
    cases ha with
    | object hl => exact .object (h "keys" (by simp [fields]) ▸ hl) hs
  | engineConfig =>
    cases ha with
    | object hi =>
      rw [h "interval" (by simp [fields])] at hi
      exact .object hi hs

/-- An object with each known member once, and the array of their contents, stand for the same. -/
theorem reads_array {r : Record} {ms : List (Option String × Form)} {fs : List Form} {a : r.Result}
    (h : List.Forall₂ (fun name f => membersNamed name ms = [(some name, f)]) r.fields fs)
    (hs : Skips r.fields ms) : r.Reads (.obj ms true) a ↔ r.Reads (.arr fs true) a := by
  cases r with
  | value =>
    obtain _ | ⟨ht, _ | ⟨hf, ⟨⟩⟩⟩ := h
    constructor
    · rintro (⟨ht', hu, hf', hv⟩)
      cases ht.symm.trans ht'
      cases hf.symm.trans hf'
      exact .array hu hv
    · rintro (⟨⟩ | ⟨hu, hv⟩)
      exact .object ht hu hf hv hs
  | setRequest =>
    obtain _ | ⟨hk, _ | ⟨hv, _ | ⟨ht, ⟨⟩⟩⟩⟩ := h
    constructor
    · rintro (⟨hk', ⟨g, hg, hread⟩, ⟨hn, -⟩ | ⟨u, hu, hstands⟩⟩)
      · cases hn.symm.trans ht
      · cases hk.symm.trans hk'
        cases hv.symm.trans hg
        cases ht.symm.trans hu
        exact .triple hread hstands
    · rintro (⟨⟩ | ⟨⟩ | ⟨hread, hstands⟩)
      exact .object hk ⟨_, hv, hread⟩ (.inr ⟨_, ht, hstands⟩) hs
  | multiGetRequest =>
    obtain _ | ⟨hl, ⟨⟩⟩ := h
    constructor
    · rintro (⟨hl'⟩)
      cases hl.symm.trans hl'
      exact .array _
    · rintro (⟨⟩ | ⟨⟩)
      exact .object hl hs
  | engineConfig =>
    obtain _ | ⟨hi, ⟨⟩⟩ := h
    constructor
    · rintro (⟨⟨hn, -⟩ | ⟨f, hf, hread⟩⟩)
      · cases hn.symm.trans hi
      · cases hi.symm.trans hf
        exact .single hread
    · rintro (⟨⟩ | ⟨⟩ | hread)
      exact .object (.inr ⟨_, hi, hread⟩) hs

/-- **Members in any order.** What an object is decoded as depends only on what its known members
hold: not on the order of the members, nor on the unknown ones, whatever these hold. If each known
member is there once, the array of their contents is decoded as the object is. -/
theorem decode_members (r : Record) :
    (∀ (s t : String) (ms ns : List (String × Form)), ObjectText s ms → ObjectText t ns →
      (∀ name ∈ r.fields, contents name ms = contents name ns) → r.decode s = r.decode t) ∧
    ∀ (s t : String) (ms : List (String × Form)) (fs : List Form), ObjectText s ms →
      ArrayText t fs → List.Forall₂ (fun name f => contents name ms = [f]) r.fields fs →
      r.decode s = r.decode t := by
  constructor
  · intro s t ms ns hs ht h
    have hnamed : ∀ name ∈ r.fields, membersNamed name (ms.map fun m => (some m.1, m.2)) =
        membersNamed name (ns.map fun m => (some m.1, m.2)) := by
      intro name hname
      rw [membersNamed_map, membersNamed_map, h name hname]
    refine Option.ext fun a => ?_
    rw [decode_eq_some_iff hs, decode_eq_some_iff ht]
    exact ⟨reads_object hnamed (skips_of_objectText ht _),
      reads_object (fun name hname => (hnamed name hname).symm) (skips_of_objectText hs _)⟩
  · intro s t ms fs hs ht h
    refine Option.ext fun a => ?_
    rw [decode_eq_some_iff hs, decode_eq_some_iff ht]
    refine reads_array (h.imp fun name f hf => ?_) (skips_of_objectText hs _)
    rw [membersNamed_map, hf]
    rfl

theorem spells_render {j : Json} (h : Json.FloatFree j) {s : String} (hs : j.render = s) :
    Spells s.toList (formOf j) := by
  rw [← hs, Json.render, String.toList_ofList]
  exact spells_print h

/-- The number five: its contents, its type, and the value that they stand for. -/
def five : Form := .num (literalOf 5)

def int8 : Form := .str (some "int8")

theorem five_fits : Fits 5 := by decide

theorem five_inRange : IntKind.int8.low ≤ 5 ∧ 5 ≤ IntKind.int8.high := by decide

theorem valueForm_five : Value.ValueForm 126 (.arr [int8, five] true)
    (.int ⟨.int8, 5, five_inRange⟩) := by
  refine .array (Value.readType_name 126 (.int .int8)) ?_
  simp only [five, Value.readContent, Value.readInt_literalOf five_fits five_inRange]
  rfl

/-- The contents first and behind a member that no value knows. -/
def contentsFirst : String := "\x7b\"x\":[[]],\"value\":5,\"type\":\"int8\"\x7d"

def typeFirst : String := "\x7b\"type\":\"int8\",\"value\":5\x7d"

def pair : String := "[\"int8\",5]"

theorem decode_members_five :
    ObjectText contentsFirst [("x", .arr [.arr [] true] true), ("value", five), ("type", int8)] ∧
    ObjectText typeFirst [("type", int8), ("value", five)] ∧ ArrayText pair [int8, five] ∧
    Record.value.decode contentsFirst = Record.value.decode typeFirst ∧
    Record.value.decode typeFirst = Record.value.decode pair ∧
    Record.value.decode pair = some (.int ⟨.int8, 5, five_inRange⟩) := by
  have hfive : Json.FloatFree (.num (.whole 5 five_fits)) := .whole ..
  have hfirst : ObjectText contentsFirst
      [("x", .arr [.arr [] true] true), ("value", five), ("type", int8)] :=
    spells_render (j := .obj [("x", .arr [.arr []]), ("value", .num (.whole 5 five_fits)),
      ("type", .str "int8")]) (.obj (by simp [hfive, Json.FloatFree.str, Json.FloatFree.arr]))
      (by decide +kernel)
  have htype : ObjectText typeFirst [("type", int8), ("value", five)] :=
    spells_render (j := .obj [("type", .str "int8"), ("value", .num (.whole 5 five_fits))])
      (.obj (by simp [hfive, Json.FloatFree.str])) (by decide +kernel)
  have hpair : ArrayText pair [int8, five] :=
    spells_render (j := .arr [.str "int8", .num (.whole 5 five_fits)])
      (.arr (by simp [hfive, Json.FloatFree.str])) (by decide +kernel)
  refine ⟨hfirst, htype, hpair, ?_, ?_, (decode_eq_some_iff hpair).mpr valueForm_five⟩
  · exact (decode_members .value).1 _ _ _ _ hfirst htype (by simp [fields, contents])
  · exact (decode_members .value).2 _ _ _ _ htype hpair (by simp [fields, contents])

end Record
end LayeredCache
