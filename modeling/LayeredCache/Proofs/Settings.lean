import LayeredCache.Environment
import LayeredCache.Proofs.Numerals
import LayeredCache.Proofs.Starting
import LayeredCache.Proofs.ValueText

/-!
# Settings, from the variables to the loop

A setting is the number that its own variable writes, if it writes one in range, and the default
otherwise. The interval goes on as a JSON payload, from which the engine reads the same number, and
its loop runs with that many seconds between two passes.

Results:
* `Text.decode_eq_ascii`: which bytes write an ASCII text.
* `taken_iff`: the value of a setting from the bytes of its variable.
* `parse_payload`: the interval that the engine reads.
* `settings_reach_loop`: from the environment to the loop.
-/

namespace LayeredCache

namespace Text

/-! ## ASCII texts -/

/-- The bytes of an ASCII text. -/
def asciiBytes (cs : List Char) : List UInt8 := cs.map fun c => c.toNat.toUInt8

/-- Nothing but ASCII characters. -/
def Ascii (cs : List Char) : Prop := ∀ c ∈ cs, c.toNat < 0x80

theorem toNat_ofNat {n : Nat} (h : n.isValidChar) : (Char.ofNat n).toNat = n := by
  rw [Char.ofNat, dif_pos h]
  rfl

/-- No ASCII character. -/
def Wide (s : Symbol) : Prop := ∀ c, s = some c → 0x80 ≤ c.toNat

theorem wide_scalar? {least : Nat} (h : 0x80 ≤ least) (n : Nat) : Wide (scalar? least n) := by
  intro c hc
  unfold scalar? at hc
  split at hc
  · rename_i hn
    obtain rfl := Option.some.inj hc
    rw [toNat_ofNat hn.1]
    exact Nat.le_trans h hn.2
  · cases hc

theorem wide_bind {x : Option Nat} {f : Nat → Symbol} (h : ∀ y, Wide (f y)) :
    Wide (x.bind f) := by
  intro c hc
  obtain ⟨y, -, hc⟩ := Option.bind_eq_some_iff.mp hc
  exact h y c hc

theorem wide_ite {p : Prop} [Decidable p] {s : Symbol} (h : Wide s) :
    Wide (if p then s else none) := by
  split
  · exact h
  · intro c hc
    cases hc

theorem wide_pair? (a b : UInt8) : Wide (pair? a b) :=
  wide_ite (wide_bind fun _ => wide_scalar? (Nat.le_refl _) _)

theorem wide_triple? (a b c : UInt8) : Wide (triple? a b c) :=
  wide_ite (wide_bind fun _ => wide_bind fun _ => wide_scalar? (by decide) _)

theorem wide_quadruple? (a b c d : UInt8) : Wide (quadruple? a b c d) :=
  wide_ite (wide_bind fun _ => wide_bind fun _ => wide_bind fun _ => wide_scalar? (by decide) _)

/-- A byte beyond ASCII begins no ASCII character. -/
theorem wide_head_decode {a : UInt8} (h : ¬ a < 0x80) (r : List UInt8) :
    ∃ s ss, decode (a :: r) = s :: ss ∧ Wide s := by
  have hs : Wide (single a) := by
    intro c hc
    rw [single, if_neg h] at hc
    cases hc
  rcases r with _ | ⟨b, _ | ⟨c, _ | ⟨d, r⟩⟩⟩
  · exact ⟨_, _, rfl, hs⟩
  · unfold decode
    split
    · rename_i x hx
      exact ⟨_, _, rfl, hx ▸ wide_pair? a b⟩
    · exact ⟨_, _, rfl, hs⟩
  · unfold decode
    split
    · rename_i x hx
      exact ⟨_, _, rfl, hx ▸ wide_triple? a b c⟩
    · rename_i x _ hx
      exact ⟨_, _, rfl, hx ▸ wide_pair? a b⟩
    · exact ⟨_, _, rfl, hs⟩
  · unfold decode
    split
    · rename_i x hx
      exact ⟨_, _, rfl, hx ▸ wide_quadruple? a b c d⟩
    · rename_i x _ hx
      exact ⟨_, _, rfl, hx ▸ wide_triple? a b c⟩
    · rename_i x _ _ hx
      exact ⟨_, _, rfl, hx ▸ wide_pair? a b⟩
    · exact ⟨_, _, rfl, hs⟩

theorem decode_cons_ne_nil (a : UInt8) (r : List UInt8) : decode (a :: r) ≠ [] := by
  intro h
  by_cases ha : a < 0x80
  · rw [decode_ascii ha] at h
    cases h
  · obtain ⟨s, ss, hs, -⟩ := wide_head_decode ha r
    cases hs.symm.trans h

/-- An ASCII character in front is a byte of its own. -/
theorem eq_of_decode_cons {a : UInt8} {r : List UInt8} {c : Char} {ss : List Symbol}
    (hc : c.toNat < 0x80) (h : decode (a :: r) = some c :: ss) :
    a = c.toNat.toUInt8 ∧ decode r = ss := by
  by_cases ha : a < 0x80
  · rw [decode_ascii ha] at h
    obtain ⟨hac, hr⟩ := List.cons.inj h
    have hvalid : a.toNat.isValidChar := .inl (Nat.lt_trans a.toNat_lt (by decide))
    rw [← Option.some.inj hac, toNat_ofNat hvalid]
    exact ⟨UInt8.ofNat_toNat.symm, hr⟩
  · obtain ⟨s, ss', hs, hw⟩ := wide_head_decode ha r
    obtain ⟨rfl, -⟩ := List.cons.inj (hs.symm.trans h)
    exact absurd hc (Nat.not_lt.mpr (hw c rfl))

theorem decode_cons_of_ascii {c : Char} (hc : c.toNat < 0x80) (r : List UInt8) :
    decode (c.toNat.toUInt8 :: r) = some c :: decode r := by
  have htoNat : c.toNat.toUInt8.toNat = c.toNat :=
    Nat.mod_eq_of_lt (Nat.lt_trans hc (by decide))
  have ha : c.toNat.toUInt8 < 0x80 := by
    rw [UInt8.lt_iff_toNat_lt, htoNat]
    exact hc
  rw [decode_ascii ha, htoNat, Char.ofNat_toNat]

/-- **Which bytes write an ASCII text**: one for each character. -/
theorem decode_eq_ascii {bs : List UInt8} {cs : List Char} (h : Ascii cs) :
    decode bs = cs.map some ↔ bs = asciiBytes cs := by
  induction cs generalizing bs with
  | nil =>
    cases bs with
    | nil => exact iff_of_true rfl rfl
    | cons a r => exact iff_of_false (decode_cons_ne_nil a r) (List.cons_ne_nil a r)
  | cons c cs ih =>
    obtain ⟨hc, hcs⟩ := List.forall_mem_cons.mp h
    constructor
    · intro hbs
      cases bs with
      | nil => cases hbs
      | cons a r =>
        obtain ⟨rfl, hr⟩ := eq_of_decode_cons hc hbs
        exact congrArg (_ :: ·) ((ih hcs).mp hr)
    · rintro rfl
      rw [asciiBytes, List.map_cons, decode_cons_of_ascii hc, List.map_cons]
      exact congrArg _ ((ih hcs).mpr rfl)

theorem ascii_of_digits {cs : List Char} (h : Json.Digits cs) : Ascii cs := by
  intro c hc
  have hd := h.2 c hc
  have : c.toNat ≤ 57 := by
    simp [Char.isDigit, UInt32.le_iff_toNat_le] at hd
    exact hd.2
  omega

theorem Unsigned.ascii {cs : List Char} {n : Nat} (h : Unsigned cs n) : Ascii cs := by
  cases h with
  | plain hd => exact ascii_of_digits hd
  | plus hd => exact List.forall_mem_cons.mpr ⟨by decide, ascii_of_digits hd⟩

theorem Signed.ascii {cs : List Char} {i : Int} (h : Signed cs i) : Ascii cs := by
  cases h with
  | unsigned hu => exact hu.ascii
  | minus hd => exact List.forall_mem_cons.mpr ⟨by decide, ascii_of_digits hd⟩

end Text

namespace Settings

open Text Json

/-! ## From variables to settings -/

section Variables

variable {α : Type} {Numeral : List Char → α → Prop} {InRange : α → Prop}
  {v : Option (List UInt8)}

/-- The variable is set to a numeral of the number, in ASCII. -/
def Writes (Numeral : List Char → α → Prop) (v : Option (List UInt8)) (n : α) : Prop :=
  ∃ cs, v = some (asciiBytes cs) ∧ Numeral cs n

/-- The number that the variable writes, if it is in range, and the default otherwise. -/
inductive Taken (Numeral : List Char → α → Prop) (InRange : α → Prop) (default : α)
    (v : Option (List UInt8)) : α → Prop
  | written {n : α} (h : Writes Numeral v n) (hr : InRange n) : Taken Numeral InRange default v n
  | otherwise (h : ∀ n, Writes Numeral v n → ¬ InRange n) : Taken Numeral InRange default v default

theorem textOf_eq_some_iff {cs : List Char} (h : Ascii cs) :
    textOf v = some cs ↔ v = some (asciiBytes cs) := by
  rw [textOf, Option.map_eq_some_iff]
  constructor
  · rintro ⟨s, hs, rfl⟩
    obtain ⟨bs, rfl, hbs⟩ := Option.bind_eq_some_iff.mp hs
    exact congrArg some ((decode_eq_ascii h).mp (text?_eq_some_iff.mp hbs))
  · rintro rfl
    refine ⟨String.ofList cs, ?_, String.toList_ofList⟩
    refine text?_eq_some_iff.mpr ?_
    rw [String.toList_ofList]
    exact (decode_eq_ascii h).mpr rfl

/-- **The value of a setting from the bytes of its variable.** -/
theorem taken_iff {read : List Char → Option α} {default n : α}
    (hread : ∀ {cs n}, read cs = some n ↔ Numeral cs n ∧ InRange n)
    (hascii : ∀ {cs n}, Numeral cs n → Ascii cs) :
    ((textOf v).bind read).getD default = n ↔ Taken Numeral InRange default v n := by
  have hsome (m : α) : (textOf v).bind read = some m ↔ Writes Numeral v m ∧ InRange m := by
    rw [Option.bind_eq_some_iff]
    constructor
    · rintro ⟨cs, hcs, hm⟩
      obtain ⟨hm, hr⟩ := hread.mp hm
      exact ⟨⟨cs, (textOf_eq_some_iff (hascii hm)).mp hcs, hm⟩, hr⟩
    · rintro ⟨⟨cs, hcs, hm⟩, hr⟩
      exact ⟨cs, (textOf_eq_some_iff (hascii hm)).mpr hcs, hread.mpr ⟨hm, hr⟩⟩
  constructor
  · rintro rfl
    cases hv : (textOf v).bind read with
    | none => exact .otherwise fun m hm hr => nomatch hv.symm.trans ((hsome m).mpr ⟨hm, hr⟩)
    | some m =>
      obtain ⟨hm, hr⟩ := (hsome m).mp hv
      exact .written hm hr
  · rintro (⟨hm, hr⟩ | h)
    · rw [(hsome n).mpr ⟨hm, hr⟩]
      rfl
    · cases hv : (textOf v).bind read with
      | none => rfl
      | some m =>
        obtain ⟨hm, hr⟩ := (hsome m).mp hv
        exact absurd hr (h m hm)

end Variables

/-! ## From the payload to the loop -/

/-- A 64-bit number with a sign. -/
def FitsSigned (n : Int) : Prop := -0x8000_0000_0000_0000 ≤ n ∧ n < 0x8000_0000_0000_0000

variable {s : Settings}

/-- **The interval that the engine reads** from the payload. -/
theorem parse_payload (h : FitsSigned s.gcInterval) :
    EngineConfig.parse s.payload = .ok ⟨s.gcInterval⟩ := by
  obtain ⟨hlow, hhigh⟩ := h
  have hfits : Fits s.gcInterval := ⟨hlow, by omega⟩
  have hj : Json.ofInt s.gcInterval = .num (.whole s.gcInterval hfits) := dif_pos hfits
  have hfree : FloatFree (.obj [("interval", .ofInt s.gcInterval)]) := by
    rw [hj]
    exact .obj (List.forall_mem_singleton.mpr (.whole _ hfits))
  have hform : formOf (.obj [("interval", .ofInt s.gcInterval)]) =
      .obj [(some "interval", .num (literalOf s.gcInterval))] true := by
    rw [hj]
    rfl
  have hspells : Spells s.payload.toList _ := Record.spells_render hfree rfl
  rw [hform] at hspells
  have hread : EngineConfig.readInterval (.num (literalOf s.gcInterval)) = .ok s.gcInterval := by
    rw [EngineConfig.readInterval, Value.readInt_literalOf hfits ⟨hlow, by omega⟩]
    rfl
  refine Record.toOption_eq_some.mp ?_
  refine (Record.decode_eq_some_iff (r := .engineConfig) hspells).mpr ?_
  refine .object (.inr ⟨_, rfl, hread⟩) ?_
  exact List.forall_mem_singleton.mpr ⟨_, rfl, .inl List.mem_cons_self⟩

/-- What a fresh engine is once it was started at `now`, to run a pass every `n` seconds. -/
structure RunsEvery (n : Int) (now : Nat) (fresh e : Engine) : Prop where
  started : e.started = true
  table : e.table = fresh.table
  watched : e.watched = fresh.watched
  isSome_loop : e.loop.isSome = true ↔ 1 ≤ n
  period : ∀ l, e.loop = some l → (l.period.toNanos : Int) = n * 1_000_000_000
  next : ∀ l, e.loop = some l → l.next = deadline now l.period

/-- A fresh engine can be started with the payload inside a scheduler. -/
theorem start_payload (h : FitsSigned s.gcInterval) (now : Nat) {fresh : Engine}
    (hs : fresh.started = false) (hl : fresh.loop = none) :
    ∃ e, fresh.startWith true now s.payload = .ok e ∧ RunsEvery s.gcInterval now fresh e := by
  have hparse := parse_payload h
  have hnanos : (EngineConfig.period ⟨s.gcInterval⟩).toNanos =
      s.gcInterval.toNat * 1_000_000_000 := EngineConfig.period_of_parse hparse
  let a : Engine.Attempt := ⟨true, now, .payload s.payload⟩
  have hperiod : a.period? = some (EngineConfig.period ⟨s.gcInterval⟩) :=
    congrArg (fun c => c.toOption.map EngineConfig.period) hparse
  generalize EngineConfig.period ⟨s.gcInterval⟩ = d at hnanos hperiod
  have htakes : a.takes? = some d := Engine.Attempt.takes?_eq_some_iff.mpr ⟨hperiod, .inr rfl⟩
  have hrun := Engine.Attempt.run_eq_of_does (.started htakes hs)
  rw [hl, Option.or_none] at hrun
  refine ⟨_, hrun, ?_⟩
  by_cases hd : 0 < d.toNanos
  · rw [show a.loop? d = some (.start now d hd) from dif_pos hd]
    refine ⟨rfl, rfl, rfl, iff_of_true rfl (by omega), fun l hl => ?_, fun l hl => ?_⟩
    · rw [← Option.some.inj hl, show (Loop.start now d hd).period = d from rfl]
      omega
    · rw [← Option.some.inj hl]
      rfl
  · rw [show a.loop? d = none from dif_neg hd]
    exact ⟨rfl, rfl, rfl, iff_of_false Bool.false_ne_true (by omega), nofun, nofun⟩

theorem fitsSigned_ofEnvironment (e : Environment) : FitsSigned (ofEnvironment e).gcInterval := by
  have h : Taken Signed FitsSigned 60 e.gcInterval (ofEnvironment e).gcInterval :=
    (taken_iff (signed?_eq_some_iff (by decide)) Signed.ascii).mp rfl
  generalize (ofEnvironment e).gcInterval = n at h
  cases h with
  | written _ hr => exact hr
  | otherwise => exact ⟨by decide, by decide⟩

/-- **From the environment to the loop.** Each of the three settings is the number that its own
variable writes in its range, and the default otherwise. From the payload the engine reads the
interval as it is; a fresh engine is started with it inside a scheduler, with a loop if it is at
least one, and as many seconds between two passes. -/
theorem settings_reach_loop (e : Environment) :
    let s := ofEnvironment e
    (∀ n, s.gcInterval = n ↔ Taken Signed FitsSigned 60 e.gcInterval n) ∧
    (∀ n, s.defaultTtl = n ↔ Taken Unsigned (· < 0x1_0000_0000_0000_0000) 0 e.defaultTtl n) ∧
    (∀ n, s.serverPort = n ↔ Taken Unsigned (· < 0x1_0000) 3000 e.serverPort n) ∧
    EngineConfig.parse s.payload = .ok ⟨s.gcInterval⟩ ∧
    ∀ (now : Nat) (fresh : Engine), fresh.started = false → fresh.loop = none →
      ∃ e', fresh.startWith true now s.payload = .ok e' ∧
        RunsEvery s.gcInterval now fresh e' := by
  intro s
  have hfits := fitsSigned_ofEnvironment e
  exact ⟨fun n => taken_iff (signed?_eq_some_iff (by decide)) Signed.ascii,
    fun n => taken_iff unsigned?_eq_some_iff Unsigned.ascii,
    fun n => taken_iff unsigned?_eq_some_iff Unsigned.ascii,
    parse_payload hfits, fun now fresh hs hl => start_payload hfits now hs hl⟩

/-- An interval with a plus and zeros before it, no UTF-8, and a port out of range. -/
def oddities : Environment where
  adapter := none
  gcInterval := some (asciiBytes "+0005".toList)
  defaultTtl := some [0x31, 0xFF]
  serverPort := some (asciiBytes "65536".toList)

theorem settings_reach_loop_oddities :
    ofEnvironment oddities = ⟨"memory", 5, 0, 3000⟩ ∧
      EngineConfig.parse (ofEnvironment oddities).payload = .ok ⟨5⟩ ∧
      Engine.empty.started = false ∧ Engine.empty.loop = none ∧
      ∃ e', Engine.empty.startWith true 7 (ofEnvironment oddities).payload = .ok e' ∧
        RunsEvery 5 7 .empty e' := by
  have hs : ofEnvironment oddities = ⟨"memory", 5, 0, 3000⟩ := by decide +kernel
  obtain ⟨-, -, -, hparse, hstart⟩ := settings_reach_loop oddities
  obtain ⟨e', he', hruns⟩ := hstart 7 .empty rfl rfl
  rw [hs] at hparse hruns
  exact ⟨hs, hs ▸ hparse, rfl, rfl, e', he', hruns⟩

end Settings
end LayeredCache
