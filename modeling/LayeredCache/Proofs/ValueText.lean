import LayeredCache.Proofs.JsonText
import LayeredCache.Value.Text

/-!
# Values, written and read

Every value without floating point is read back from its text: its type and its contents are the
two members of an object, in the order in which they are written or the other way round. When the
contents come first they are read twice, as JSON and then for their type.

Results:
* `readContent_formOf`: contents are read back for their type.
* `arranged_of_parse`: what any text is read as can be written and read again.
* `parse_render`: texts of values are read back.
-/

namespace LayeredCache.Value

open Json Json.Form

/-- A value without floating point. -/
def FloatFree (v : Value) : Prop := v.content.FloatFree

/-- Objects in the value are sorted by key, and it nests at most so deep. -/
def Arranged (depth : Nat) (v : Value) : Prop := v.content.Arranged depth

/-- The text of a value with its contents before its type. -/
def renderSwapped (v : Value) : String :=
  Json.render (.obj [("value", v.content), ("type", .str v.type.name)])

/-! ## Contents -/

theorem ofNat_byte (b : UInt8) :
    ∃ h, Json.ofNat b.toNat = .num (.whole b.toNat h) := by
  have hb := b.toNat_lt
  have h : Fits (b.toNat : Int) := ⟨by omega, by omega⟩
  exact ⟨h, by rw [Json.ofNat, Json.ofInt, dif_pos h]⟩

/-- Only JSON contents can hold floating point. -/
theorem floatFree_iff {v : Value} : v.FloatFree ↔ ∀ j, v = .json j → j.FloatFree := by
  cases v with
  | int n => exact ⟨fun _ j hj => (nomatch hj), fun _ => Json.FloatFree.whole ..⟩
  | bool b => exact ⟨fun _ j hj => (nomatch hj), fun _ => Json.FloatFree.bool b⟩
  | str s => exact ⟨fun _ j hj => (nomatch hj), fun _ => Json.FloatFree.str s⟩
  | json j => exact ⟨fun h i hi => Value.json.inj hi ▸ h, fun h => h j rfl⟩
  | bytes bs =>
    refine ⟨fun _ j hj => (nomatch hj), fun _ => .arr fun j hj => ?_⟩
    obtain ⟨b, -, rfl⟩ := List.mem_map.mp hj
    obtain ⟨h, hb⟩ := ofNat_byte b
    exact hb ▸ .whole _ h

/-- Only JSON contents can nest deeper than a list. -/
theorem arranged_iff {depth : Nat} {v : Value} :
    v.Arranged (depth + 1) ↔ ∀ j, v = .json j → j.Arranged (depth + 1) := by
  cases v with
  | int n => exact ⟨fun _ j hj => (nomatch hj), fun _ => Json.Arranged.num ..⟩
  | bool b => exact ⟨fun _ j hj => (nomatch hj), fun _ => Json.Arranged.bool _ b⟩
  | str s => exact ⟨fun _ j hj => (nomatch hj), fun _ => Json.Arranged.str _ s⟩
  | json j => exact ⟨fun h i hi => Value.json.inj hi ▸ h, fun h => h j rfl⟩
  | bytes bs =>
    refine ⟨fun _ j hj => (nomatch hj), fun _ => .arr fun j hj => ?_⟩
    obtain ⟨b, -, rfl⟩ := List.mem_map.mp hj
    obtain ⟨h, hb⟩ := ofNat_byte b
    exact hb ▸ .num depth _

theorem readInt_literalOf {low high n : Int} (hf : Fits n) (h : low ≤ n ∧ n ≤ high) :
    readInt low high (.num (literalOf n)) = .ok ⟨n, h⟩ :=
  readInt_eq_ok_iff.mpr ⟨literalOf n, hf, rfl, number?_literalOf hf⟩

theorem readEach_bytes (bs : List UInt8) :
    (readEach (readInt 0 255) true (formsOf (bs.map fun b => .ofNat b.toNat))).map
      (fun ns => ns.map fun n => n.1.toNat.toUInt8) = .ok bs := by
  induction bs with
  | nil => rfl
  | cons b bs ih =>
    obtain ⟨h, hb⟩ := ofNat_byte b
    have hlt := b.toNat_lt
    obtain ⟨ns, hns, hbs⟩ := map_eq_ok ih
    rw [List.map_cons, hb, formsOf, formOf, readEach,
      readInt_literalOf h ⟨by omega, by omega⟩, hns]
    simp [bind, Except.bind, pure, Except.pure, Except.map, hbs]

/-- **Contents are read back for their type.** -/
theorem readContent_formOf {depth : Nat} {v : Value} (ha : v.Arranged (depth + 1))
    (hf : v.FloatFree) : readContent (depth + 1) v.type (formOf v.content) = .ok v := by
  cases v with
  | int n =>
    simp only [type, content, formOf, readContent, readInt_literalOf (bounded_fits n) n.inRange]
    rfl
  | bool b => rfl
  | str s => rfl
  | bytes bs =>
    obtain ⟨ns, hns, hbs⟩ := map_eq_ok (readEach_bytes bs)
    simp [type, content, formOf, readContent, readList, hns, Except.map, hbs]
  | json j =>
    have hj : readJson (formOf j) (depth + 1) = .ok j := readJson_formOf ha hf
    simp only [type, content, readContent, hj]
    rfl

/-! ## Texts -/

theorem readType_name (depth : Nat) (t : ValueType) :
    readType depth (.str (some t.name)) = .ok t := by
  simp [readType, named, ValueType.ofName?_name]

theorem parse_of_floatFree {j : Json} (h : j.FloatFree) :
    parse j.render = read maxDepth (formOf j) := by
  rw [parse, ofString_render h, Document.read]
  cases read maxDepth (formOf j) <;> rfl

theorem parse_typeFirst {v : Value} (ha : v.Arranged 126) (hf : v.FloatFree) :
    parse v.render = .ok v := by
  have hj : v.toJson.FloatFree := by
    refine .obj fun m hm => ?_
    obtain rfl | rfl : m = ("type", .str v.type.name) ∨ m = ("value", v.content) := by
      simpa using hm
    · exact .str _
    · exact hf
  rw [render, parse_of_floatFree hj]
  simp only [toJson, formOf, membersOf, read, maxDepth, readParts, Parts.addType, readType_name,
    Except.map, bind, Except.bind]
  simp [readParts, Parts.addContent, readContent_formOf ha hf, Except.map, finish]

theorem parse_contentFirst {v : Value} (ha : v.Arranged 126) (hf : v.FloatFree) :
    parse v.renderSwapped = .ok v := by
  have hj : Json.FloatFree (.obj [("value", v.content), ("type", .str v.type.name)]) := by
    refine .obj fun m hm => ?_
    obtain rfl | rfl : m = ("value", v.content) ∨ m = ("type", .str v.type.name) := by
      simpa using hm
    · exact hf
    · exact .str _
  have hcontent : readJson (formOf v.content) 126 = .ok v.content := readJson_formOf ha hf
  rw [renderSwapped, parse_of_floatFree hj]
  simp only [formOf, membersOf, read, maxDepth, readParts, Parts.addContent, hcontent, Except.map,
    bind, Except.bind]
  simp [readParts, Parts.addType, readType_name, readContent_formOf ha hf, Except.map, finish,
    bind, Except.bind, pure, Except.pure]

/-! ## What is read -/

theorem arranged_readContent {depth : Nat} {t : ValueType} {f : Form} {v : Value}
    (h : readContent (depth + 1) t f = .ok v) : v.Arranged (depth + 1) := by
  rw [arranged_iff]
  rintro j rfl
  cases t with
  | json =>
    obtain ⟨i, hi, he⟩ := map_eq_ok h
    exact Value.json.inj he ▸ arranged_readJson hi
  | _ =>
    obtain ⟨a, -, he⟩ := map_eq_ok h
    cases he

/-- A value among the parts nests at most so deep. -/
def Parts.Arranged (depth : Nat) : Parts → Prop
  | .whole v => v.Arranged depth
  | _ => True

theorem Parts.arranged_addType {depth : Nat} {f : Form} {p q : Parts}
    (h : p.addType (depth + 1) f = .ok q) : q.Arranged (depth + 1) := by
  cases p with
  | nothing =>
    obtain ⟨t, -, rfl⟩ := map_eq_ok h
    trivial
  | content c =>
    obtain ⟨t, -, h⟩ := bind_eq_ok h
    obtain ⟨v, hv, h⟩ := bind_eq_ok h
    cases h
    exact arranged_readContent hv
  | type t => cases h
  | whole v => cases h

theorem Parts.arranged_addContent {depth : Nat} {f : Form} {p q : Parts}
    (h : p.addContent (depth + 1) f = .ok q) : q.Arranged (depth + 1) := by
  cases p with
  | nothing =>
    obtain ⟨j, -, rfl⟩ := map_eq_ok h
    trivial
  | type t =>
    obtain ⟨v, hv, rfl⟩ := map_eq_ok h
    exact arranged_readContent hv
  | content c => cases h
  | whole v => cases h

theorem arranged_readParts {depth : Nat} {closed : Bool} {p : Parts}
    {ms : List (Option String × Form)} {v : Value} (hp : p.Arranged (depth + 1))
    (h : readParts (depth + 1) closed p ms = .ok v) : v.Arranged (depth + 1) := by
  fun_induction readParts (depth + 1) closed p ms with
  | case1 u =>
    obtain ⟨-, -, rfl⟩ := map_eq_ok h
    exact hp
  | case2 => cases h
  | case3 => cases h
  | case4 p f r ih =>
    obtain ⟨q, hq, h⟩ := bind_eq_ok h
    exact ih q (Parts.arranged_addType hq) h
  | case5 p f r ih =>
    obtain ⟨q, hq, h⟩ := bind_eq_ok h
    exact ih q (Parts.arranged_addContent hq) h
  | case6 p f r k _ _ ih =>
    obtain ⟨-, -, h⟩ := bind_eq_ok h
    exact ih hp h

theorem arranged_read {depth : Nat} {f : Form} {v : Value} (h : read (depth + 2) f = .ok v) :
    v.Arranged (depth + 1) := by
  cases f with
  | obj ms closed => exact arranged_readParts (p := .nothing) trivial h
  | arr items closed =>
    match items with
    | [] => cases h
    | [t] =>
      obtain ⟨_, -, h⟩ := bind_eq_ok h
      cases h
    | t :: c :: rest =>
      obtain ⟨u, hu, h⟩ := bind_eq_ok h
      obtain ⟨w, hw, h⟩ := bind_eq_ok h
      obtain ⟨-, -, h⟩ := bind_eq_ok h
      cases h
      exact arranged_readContent hw
  | _ => cases h

/-- **What a text is read as** has its objects sorted by key and nests no deeper than a value
may. -/
theorem arranged_of_parse {text : String} {v : Value} (h : parse text = .ok v) :
    v.Arranged 126 := by
  obtain ⟨u, hu, h⟩ := bind_eq_ok h
  split at h
  · cases h
    exact arranged_read hu
  · cases h

/-- **Texts of values are read back**: any value without floating point that is sorted by key and
nests at most 126 deep is read from its text, whichever member comes first; and a value that was
read from any text is read again from its own. -/
theorem parse_render :
    (∀ v : Value, (∀ j, v = .json j → j.FloatFree ∧ j.Arranged 126) →
      parse v.render = .ok v ∧ parse v.renderSwapped = .ok v) ∧
    ∀ (text : String) (v : Value), parse text = .ok v → (∀ j, v = .json j → j.FloatFree) →
      parse v.render = .ok v ∧ parse v.renderSwapped = .ok v := by
  have main {v : Value} (ha : v.Arranged 126) (hf : v.FloatFree) :
      parse v.render = .ok v ∧ parse v.renderSwapped = .ok v :=
    ⟨parse_typeFirst ha hf, parse_contentFirst ha hf⟩
  constructor
  · intro v h
    exact main (arranged_iff.mpr fun j hj => (h j hj).2) (floatFree_iff.mpr fun j hj => (h j hj).1)
  · intro text v h hf
    exact main (arranged_of_parse h) (floatFree_iff.mpr hf)

/-- JSON of every kind, with the least whole number that fits, a quote and a control character. -/
def nested : Json :=
  .obj [("a\"", .arr [.null, .bool true, .num (.whole (-0x8000_0000_0000_0000) (by decide))]),
    ("b", .str "\x01\\ü")]

theorem parse_render_nested :
    (nested.FloatFree ∧ nested.Arranged 126) ∧
      (parse (json nested).render = .ok (json nested) ∧
        parse (json nested).renderSwapped = .ok (json nested)) ∧
      parse (json nested).render = .ok (json nested) := by
  have hf : nested.FloatFree := by
    refine .obj (List.forall_mem_cons.mpr ⟨.arr ?_, List.forall_mem_singleton.mpr (.str _)⟩)
    exact List.forall_mem_cons.mpr ⟨.null, List.forall_mem_cons.mpr ⟨.bool true,
      List.forall_mem_singleton.mpr (.whole ..)⟩⟩
  have ha : nested.Arranged 126 := by
    refine .obj ?_ (List.forall_mem_cons.mpr ⟨.arr ?_, List.forall_mem_singleton.mpr (.str ..)⟩)
    · refine List.pairwise_pair.mpr ?_
      decide
    · exact List.forall_mem_cons.mpr ⟨.null _, List.forall_mem_cons.mpr ⟨.bool _ true,
        List.forall_mem_singleton.mpr (.num ..)⟩⟩
  have first := parse_render.1 (json nested) fun j hj => Value.json.inj hj ▸ ⟨hf, ha⟩
  exact ⟨⟨hf, ha⟩, first,
    (parse_render.2 _ (json nested) first.2 fun j hj => Value.json.inj hj ▸ hf).1⟩

end LayeredCache.Value
