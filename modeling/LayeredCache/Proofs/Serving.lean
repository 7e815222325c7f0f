import LayeredCache.Proofs.Routes
import LayeredCache.Proofs.TimedMap

/-!
# The HTTP front over a memory cache

What the server answers to a request, and what the request does to the cache behind it, said about
a timed map: which requests ask for what, what each of these calls shows in an answer, and which
requests are turned away, leaving the map as it was.

Requests come one after the other, time passes between them, and reclamation passes may go on at the
same time, a step here and a step there. A step of a pass takes out expired entries and nothing
else, and then such an entry is told to be absent.

Results:
* `rules_unique`: what a call shows and does is determined.
* `serves_of_serve`: every request is answered by the rules, whatever it holds.
* `run_served`: the answers of every sequence of requests are those of a timed map.
-/

namespace LayeredCache.Http

open Json TimedMap

/-! ## What requests ask for -/

/-- The request says that it carries JSON, it is not too long, and it has this form. -/
structure Carries (r : Request) (f : Form) : Prop where
  json : r.isJson = true
  short : r.body.size ≤ maxBody
  form : (Document.ofSymbols r.body.symbols).form = f

/-- The path is these words and one segment more, which stands for the key. -/
def At (r : Request) (words key : String) : Prop :=
  ∃ segment, IsSegment segment ∧ pathOf r.target = Route.word words ++ segment ∧
    Text.text? (Percent.decode segment) = some key

/-- The time that a value is stored for: the seconds asked for, or else the default. -/
def Lasts (default : Duration) : Option Nat → Duration → Prop
  | none, d => d = default
  | some secs, d => d.toNanos = secs * 1_000_000_000

/-- **Requests that ask for a call**, with the method that they have to be made with. -/
inductive Asks (default : Duration) (r : Request) : String → Call → Prop
  | set {f : Form} {q : SetRequest} {ttl : Duration} (hp : pathOf r.target = Route.word "/set")
      (hf : Carries r f) (hq : SetForm f q) (hk : q.key ≠ "") (ht : Lasts default q.ttl ttl) :
      Asks default r "PUT" (.put q.key q.value ttl)
  | get {key : String} (h : At r "/get/" key) : Asks default r "GET" (.get key)
  | multiGet {f : Form} {keys : List String} (hp : pathOf r.target = Route.word "/mget")
      (hf : Carries r f) (hk : MultiGetForm f keys) : Asks default r "POST" (.getMulti keys)
  | up {key : String} (h : At r "/incr/" key) : Asks default r "POST" (.step .up key)
  | down {key : String} (h : At r "/decr/" key) : Asks default r "POST" (.step .down key)
  | delete {key : String} (h : At r "/del/" key) : Asks default r "DELETE" (.delete key)
  | exists {key : String} (h : At r "/exists/" key) : Asks default r "GET" (.isExist key)
  | flush (hp : pathOf r.target = Route.word "/flush") : Asks default r "DELETE" .clearAll

/-- The text that tells what went wrong; it begins with the code. -/
def complaint (code : Nat) (reason : String) : String :=
  "ERROR-" ++ toString code ++ ", " ++ reason

/-- The body that tells what went wrong. -/
def refusal (code : Nat) (reason : String) : Json :=
  .obj [("code", .ofNat code), ("error", .str (complaint code reason))]

/-- The refusals of bodies that are not read as what is asked for. -/
def unreadable : List (Nat × String) :=
  [(400, "the body is no JSON"), (422, "the body is JSON of the wrong kind")]

/-- **Requests that are turned away** where the path and the method are right. -/
inductive Declines (r : Request) : Response → Prop
  | badKey {words : String} {segment : List UInt8}
      (hw : words ∈ ["/get/", "/del/", "/incr/", "/decr/", "/exists/"])
      (hs : IsSegment segment) (hp : pathOf r.target = Route.word words ++ segment)
      (hk : Text.text? (Percent.decode segment) = none) :
      Declines r (.rejected 400 "the key is no UTF-8")
  | noJson {words : String} (hw : words ∈ ["/set", "/mget"])
      (hp : pathOf r.target = Route.word words) (h : r.isJson = false) :
      Declines r (.rejected 415 "the content type has to be JSON")
  | tooLong {words : String} (hw : words ∈ ["/set", "/mget"])
      (hp : pathOf r.target = Route.word words) (hj : r.isJson = true)
      (h : maxBody < r.body.size) : Declines r (.rejected 413 "the body is too long")
  | noSet {f : Form} {status : Nat} {reason : String} (hp : pathOf r.target = Route.word "/set")
      (hf : Carries r f) (h : ∀ q, ¬ SetForm f q) (hs : (status, reason) ∈ unreadable) :
      Declines r (.rejected status reason)
  | noMultiGet {f : Form} {status : Nat} {reason : String}
      (hp : pathOf r.target = Route.word "/mget") (hf : Carries r f)
      (h : ∀ keys, ¬ MultiGetForm f keys) (hs : (status, reason) ∈ unreadable) :
      Declines r (.rejected status reason)
  | emptyKey {f : Form} {q : SetRequest} (hp : pathOf r.target = Route.word "/set")
      (hf : Carries r f) (hq : SetForm f q) (hk : q.key = "") :
      Declines r (.json 400 (refusal 4002015 "invalid request: Key cannot be empty"))

/-! ## What calls show and do -/

/-- What a batch shows of a key: its value if it is live, or else null. -/
def slotOf (now : Nat) (m : TimedMap) (key : String) : Json :=
  match m key with
  | none => .null
  | some e => if Live now e then e.value.toJson else .null

/-- What a batch tells of a key that it has no value for. -/
def missing? (now : Nat) (m : TimedMap) (key : String) : Option String :=
  match m key with
  | none => some ("key [" ++ key ++ "] error: " ++ complaint 4002005 ("key not exist: " ++ key))
  | some e =>
    if Live now e then none
    else some ("key [" ++ key ++ "] error: " ++ complaint 4002006 ("key expired: " ++ key))

/-- The word for a key that was stepped. -/
def steppedWord : Step → String
  | .up => "incremented"
  | .down => "decremented"

/-- The code and the text for a key that is at the end of its range. -/
def overflowed (key : String) : Step → Json
  | .up => refusal 4002008 ("increment of key " ++ key ++ " overflows")
  | .down => refusal 4002009 ("decrement of key " ++ key ++ " overflows")

/-- A live key. -/
def Holds (now : Nat) (m : TimedMap) (key : String) (e : Entry) : Prop :=
  m key = some e ∧ Live now e

/-- A key that is expired, and still there. -/
def Outlived (now : Nat) (m : TimedMap) (key : String) : Prop :=
  ∃ e, m key = some e ∧ ¬ Live now e

/-- **The rules of the timed map over HTTP**: the status and the body of the answer to a call, and
the map then. -/
inductive Rules (now : Nat) (m : TimedMap) : Call → Nat → Json → TimedMap → Prop
  | set (key : String) (v : Value) (ttl : Duration) :
      Rules now m (.put key v ttl) 200 (keyAnswer key "set")
        (Function.update m key (some ⟨v, now, ttl⟩))
  | found {key : String} {e : Entry} (h : Holds now m key e) :
      Rules now m (.get key) 200 (.obj [("key", .str key), ("value", e.value.toJson)]) m
  | absent {key : String} (h : m key = none) :
      Rules now m (.get key) 404 (refusal 4002005 ("key not exist: " ++ key)) m
  | expired {key : String} (h : Outlived now m key) :
      Rules now m (.get key) 404 (refusal 4002006 ("key expired: " ++ key)) m
  | multiGet (keys : List String) :
      Rules now m (.getMulti keys) 200
        (.obj [("values", .arr (keys.map (slotOf now m))),
          ("errors", .arr ((keys.filterMap (missing? now m)).map .str))]) m
  | stepped {d : Step} {key : String} {e : Entry} {n n' : BoundedInt} (h : Holds now m key e)
      (hv : e.value = .int n) (hk : n'.kind = n.kind) (hn : n'.val = n.val + delta d) :
      Rules now m (.step d key) 200 (keyAnswer key (steppedWord d))
        (Function.update m key (some { e with value := .int n' }))
  | stepAbsent {d : Step} {key : String} (h : m key = none) :
      Rules now m (.step d key) 404 (refusal 4002005 ("key not exist: " ++ key)) m
  | stepExpired {d : Step} {key : String} (h : Outlived now m key) :
      Rules now m (.step d key) 404 (refusal 4002006 ("key expired: " ++ key)) m
  | notInteger {d : Step} {key : String} {e : Entry} (h : Holds now m key e)
      (hv : e.value.isInteger = false) :
      Rules now m (.step d key) 400
        (refusal 4002007 ("value of key " ++ key ++ " is not an integer type")) m
  | atBound {d : Step} {key : String} {e : Entry} {n : BoundedInt} (h : Holds now m key e)
      (hv : e.value = .int n) (hn : n.val = d.bound n.kind) :
      Rules now m (.step d key) 400 (overflowed key d) m
  | delete (key : String) :
      Rules now m (.delete key) 200 (keyAnswer key "deleted") (Function.update m key none)
  | present {key : String} {e : Entry} (h : Holds now m key e) :
      Rules now m (.isExist key) 200 (.obj [("key", .str key), ("exists", .bool true)]) m
  | missing {key : String} (h : ∀ e, ¬ Holds now m key e) :
      Rules now m (.isExist key) 200 (.obj [("key", .str key), ("exists", .bool false)]) m
  | flush : Rules now m .clearAll 200 (keyAnswer "*" "flushed") fun _ => none

theorem Holds.unique {now : Nat} {m : TimedMap} {key : String} {e e' : Entry}
    (h : Holds now m key e) (h' : Holds now m key e') : e' = e :=
  Option.some.inj (h'.1.symm.trans h.1)

theorem Holds.ne_none {now : Nat} {m : TimedMap} {key : String} {e : Entry}
    (h : Holds now m key e) : m key ≠ none := fun hn => nomatch hn.symm.trans h.1

theorem Outlived.ne_none {now : Nat} {m : TimedMap} {key : String} (h : Outlived now m key) :
    m key ≠ none := by
  obtain ⟨e, he, -⟩ := h
  exact fun hn => nomatch hn.symm.trans he

theorem Outlived.not_holds {now : Nat} {m : TimedMap} {key : String} {e : Entry}
    (h : Outlived now m key) : ¬ Holds now m key e := by
  rintro ⟨he, hl⟩
  obtain ⟨e', he', hn⟩ := h
  obtain rfl := Option.some.inj (he'.symm.trans he)
  exact hn hl

/-- A whole number is its kind and what it counts. -/
theorem bounded_ext {n n' : BoundedInt} (hk : n'.kind = n.kind) (hv : n'.val = n.val) : n' = n := by
  obtain ⟨_, _, _⟩ := n
  obtain ⟨_, _, _⟩ := n'
  dsimp only at hk hv
  subst hk hv
  rfl

/-- **The rules leave no choice.** -/
theorem rules_unique {now : Nat} {m n n' : TimedMap} {c : Call} {status status' : Nat}
    {body body' : Json} (h : Rules now m c status body n) (h' : Rules now m c status' body' n') :
    status' = status ∧ body' = body ∧ n' = n := by
  cases h with
  | set | multiGet | delete | flush => cases h'; exact ⟨rfl, rfl, rfl⟩
  | found h | present h =>
    cases h' <;> grind [Holds.unique, Holds.ne_none, Outlived.not_holds]
  | absent h | missing h | stepAbsent h =>
    cases h' <;> grind [Holds.ne_none, Outlived.ne_none]
  | expired h | stepExpired h =>
    cases h' <;> grind [Outlived.not_holds, Outlived.ne_none]
  | stepped h hv hk hn =>
    cases h' with
    | stepped h' hv' hk' hn' =>
      obtain rfl := h.unique h'
      obtain rfl := Value.int.inj (hv'.symm.trans hv)
      obtain rfl := bounded_ext (hk'.trans hk.symm) (hn'.trans hn.symm)
      exact ⟨rfl, rfl, rfl⟩
    | _ => grind [Holds.unique, Holds.ne_none, Outlived.not_holds, Value.isInteger, val_ne_bound]
  | notInteger h hv =>
    cases h' <;> grind [Holds.unique, Holds.ne_none, Outlived.not_holds, Value.isInteger]
  | atBound h hv hn =>
    cases h' <;>
      grind [Holds.unique, Holds.ne_none, Outlived.not_holds, Value.isInteger, val_ne_bound]

/-! ## What requests come to -/

/-- What is asked for with `method` may be asked for with the given one: with the same, and what can
be got also without its body. -/
def Takes (method given : String) : Prop := given = method ∨ given = "HEAD" ∧ method = "GET"

/-- The answer as it is sent: one to `HEAD` has no body. -/
def sent (given : String) (x : Response) : Response :=
  if given = "HEAD" then { x with body := "" } else x

/-- The methods that an answer names for a path. -/
def allowOf (path : List UInt8) (allow : Option String) : Prop :=
  (∃ x, Leads path x ∧ allow = some (",".intercalate x.allowed)) ∨
    (∀ x, ¬ Leads path x) ∧ allow = none

/-- **What the server answers** to a request at an instant, and the map then. -/
inductive Serves (default : Duration) (now : Nat) (m : TimedMap) (r : Request) :
    Response → TimedMap → Prop
  | asked {method : String} {c : Call} {status : Nat} {body : Json} {m' : TimedMap}
      (ha : Asks default r method c) (hm : Takes method r.method)
      (h : Rules now m c status body m') :
      Serves default now m r (sent r.method (.json status body)) m'
  | health (hp : pathOf r.target = Route.word "/health") (hm : Takes "GET" r.method) :
      Serves default now m r (sent r.method (.json 200 (healthAnswer
        (Timestamp.text (Timestamp.epoch + now / nanosPerMilli))))) m
  | declined {x : Route} {e : Response} (hx : Leads (pathOf r.target) x)
      (hm : Takes x.method r.method) (h : Declines r e) :
      Serves default now m r (sent r.method e) m
  | preflight {allow : Option String} (hm : r.method = "OPTIONS")
      (ha : allowOf (pathOf r.target) allow) :
      Serves default now m r { Response.bare 200 allow with preflight := true } m
  | unrouted (hm : r.method ≠ "OPTIONS") (h : ∀ x, ¬ Leads (pathOf r.target) x) :
      Serves default now m r (.bare 404 none) m
  | wrongMethod {x : Route} (hm : r.method ≠ "OPTIONS") (hx : Leads (pathOf r.target) x)
      (ht : ¬ Takes x.method r.method) :
      Serves default now m r (.bare 405 (some (",".intercalate x.allowed))) m

/-! ## Requests with a body, requests with a key -/

variable {default : Duration} {r : Request}

/-- What a request is read as, and what it is refused with. -/
theorem read_cases {α : Type} (read : Form → Except Reject α) (r : Request) :
    (∃ f a, Carries r f ∧ read f = .ok a ∧ r.read read = .ok a) ∨
    (∃ f e status reason, Carries r f ∧ read f = .error e ∧ (status, reason) ∈ unreadable ∧
      r.read read = .error (.rejected status reason)) ∨
    r.isJson = false ∧
      r.read read = .error (.rejected 415 "the content type has to be JSON") ∨
    r.isJson = true ∧ maxBody < r.body.size ∧
      r.read read = .error (.rejected 413 "the body is too long") := by
  unfold Request.read
  by_cases hj : r.isJson = true
  · by_cases hs : maxBody < r.body.size
    · exact .inr (.inr (.inr ⟨hj, hs, by simp [hj, hs]⟩))
    · have hc : Carries r (Document.ofSymbols r.body.symbols).form :=
        ⟨hj, Nat.le_of_not_lt hs, rfl⟩
      cases hr : read (Document.ofSymbols r.body.symbols).form with
      | ok a => exact .inl ⟨_, a, hc, hr, by simp [hj, hs]⟩
      | error e =>
        cases e with
        | malformed =>
          exact .inr (.inl ⟨_, _, 400, _, hc, hr, List.mem_cons_self, by simp only [hj, hs]; rfl⟩)
        | mismatch =>
          refine .inr (.inl ⟨_, _, 422, _, hc, hr, ?_, by simp only [hj, hs]; rfl⟩)
          exact List.mem_cons_of_mem _ List.mem_cons_self
  · exact .inr (.inr (.inl ⟨by simpa using hj, by simp [hj]⟩))

/-! ## What a process comes to -/

/-- The process ends by itself with an answer, at the instant at which it began, and this holds of
the answer and of the map then. -/
def Comes (p : Process Solo Response) (s : Solo) (P : Response → TimedMap → Prop) : Prop :=
  ∃ e s', p.advance s = (.done e, s') ∧ s'.instant = s.instant ∧ P e s'.engine.table.find?

theorem comes_done {e : Response} {s : Solo} {P : Response → TimedMap → Prop}
    (h : P e s.engine.table.find?) : Comes (.done e) s P := ⟨e, s, rfl, rfl, h⟩

theorem Comes.mono {p : Process Solo Response} {s : Solo} {P Q : Response → TimedMap → Prop}
    (h : Comes p s P) (hPQ : ∀ e m, P e m → Q e m) : Comes p s Q := by
  obtain ⟨e, s', ha, hi, hp⟩ := h
  exact ⟨e, s', ha, hi, hPQ _ _ hp⟩

theorem advance_bind_of_done {σ α β : Type} [Clock σ] {p : Process σ α} {f : α → Process σ β}
    {s s' : σ} {a : α} (h : p.advance s = (.done a, s')) :
    (p.bind f).advance s = (f a).advance s' := by
  induction p generalizing s with
  | done b =>
    obtain ⟨hb, rfl⟩ := Prod.mk.inj h
    obtain rfl := Process.done.inj hb
    rfl
  | act g k ih => exact ih _ h
  | wait w c k ih =>
    unfold Process.advance at h
    split at h
    · rename_i hr
      rw [Process.bind, Process.advance, if_pos hr]
      exact ih s h
    · cases h

theorem comes_map {p : Process Solo Response} {s : Solo} {P Q : Response → TimedMap → Prop}
    (h : Comes p s P) {f : Response → Response} (hPQ : ∀ e m, P e m → Q (f e) m) :
    Comes (p.bind fun e => .done (f e)) s Q := by
  obtain ⟨e, s', ha, hi, hp⟩ := h
  exact ⟨f e, s', advance_bind_of_done ha, hi, hPQ e _ hp⟩

/-- What a handler comes to. -/
inductive Handles (default : Duration) (now : Nat) (m : TimedMap) (r : Request) (method : String) :
    Response → TimedMap → Prop
  | asked {c : Call} {status : Nat} {body : Json} {m' : TimedMap} (ha : Asks default r method c)
      (h : Rules now m c status body m') : Handles default now m r method (.json status body) m'
  | health (hp : pathOf r.target = Route.word "/health") (hm : method = "GET") :
      Handles default now m r method (.json 200 (healthAnswer
        (Timestamp.text (Timestamp.epoch + now / nanosPerMilli)))) m
  | declined {e : Response} (h : Declines r e) : Handles default now m r method e m

/-- The handler does as the request asks, by the rules of the timed map. -/
abbrev DoesWell (default : Duration) (r : Request) (s : Solo) (x : Route) : Prop :=
  Comes (handle Solo.memory.cache default r x) s
    (Handles default s.instant s.engine.table.find? r x.method)

/-- A key of a path is one that can be asked with, or it is declined. -/
theorem comes_withKey {s : Solo} {P : Response → TimedMap → Prop} {words : String}
    {segment : List UInt8} {ask : String → Process Solo Response}
    (hw : words ∈ ["/get/", "/del/", "/incr/", "/decr/", "/exists/"])
    (hs : IsSegment segment) (hp : pathOf r.target = Route.word words ++ segment)
    (ha : ∀ key, At r words key → Comes (ask key) s P)
    (hd : ∀ e, Declines r e → P e s.engine.table.find?) : Comes (withKey segment ask) s P := by
  unfold withKey keyOf
  cases hk : Text.text? (Percent.decode segment) with
  | some key => exact ha key ⟨segment, hs, hp, hk⟩
  | none => exact comes_done (hd _ (.badKey hw hs hp hk))

/-! ## The handlers -/

section Handlers

variable {s : Solo} {segment : List UInt8}

/-- A key is live, or not there, or expired; and it reads so. -/
theorem reads_cases (t : Table) (now : Nat) (key : String) :
    (∃ e, Holds now t.find? key e ∧ t.read now key = .ok e.value) ∨
    (t.find? key = none ∧ t.read now key = .error (.keyAbsent key)) ∨
    Outlived now t.find? key ∧ t.read now key = .error (.keyExpired key) := by
  rw [← look_find?, look]
  cases he : t.find? key with
  | none => exact .inr (.inl ⟨rfl, rfl⟩)
  | some e =>
    by_cases hl : Live now e
    · exact .inl ⟨e, ⟨he, hl⟩, if_pos hl⟩
    · exact .inr (.inr ⟨⟨e, he, hl⟩, if_neg hl⟩)

theorem does_get (hs : IsSegment segment) (hp : pathOf r.target = Route.word "/get/" ++ segment) :
    DoesWell default r s (.get segment) := by
  refine comes_withKey (by simp) hs hp (fun key hk => ?_) fun e => .declined
  have ha : Asks default r "GET" (.get key) := .get hk
  refine ⟨.ofAnswer (valueAnswer key) (s.engine.table.read s.instant key), s, rfl, rfl, ?_⟩
  rcases reads_cases s.engine.table s.instant key with ⟨e, he, hr⟩ | ⟨he, hr⟩ | ⟨he, hr⟩
  · rw [hr]
    exact .asked ha (.found he)
  · rw [hr]
    exact .asked ha (.absent he)
  · rw [hr]
    exact .asked ha (.expired he)

theorem does_isExist (hs : IsSegment segment)
    (hp : pathOf r.target = Route.word "/exists/" ++ segment) :
    DoesWell default r s (.exists segment) := by
  refine comes_withKey (by simp) hs hp (fun key hk => ?_) fun e => .declined
  have ha : Asks default r "GET" (.isExist key) := .exists hk
  refine ⟨.json 200 (existsAnswer key (s.engine.table.isLive s.instant key)), s, rfl, rfl, ?_⟩
  rw [← isOk_look, look_find?]
  rcases reads_cases s.engine.table s.instant key with ⟨e, he, hr⟩ | ⟨he, hr⟩ | ⟨⟨e, he, hl⟩, hr⟩
  · rw [hr]
    exact .asked ha (.present he)
  · rw [hr]
    exact .asked ha (.missing fun e' h => nomatch he.symm.trans h.1)
  · rw [hr]
    refine .asked ha (.missing fun e' h => hl ?_)
    obtain rfl := Option.some.inj (he.symm.trans h.1)
    exact h.2

theorem does_delete (hs : IsSegment segment)
    (hp : pathOf r.target = Route.word "/del/" ++ segment) :
    DoesWell default r s (.delete segment) := by
  refine comes_withKey (by simp) hs hp (fun key hk => ?_) fun e => .declined
  refine ⟨.json 200 (keyAnswer key "deleted"), _, rfl, rfl, ?_⟩
  have hm : (s.engine.table.erase key).find? = Function.update s.engine.table.find? key none :=
    find?_erase s.engine.table key
  exact .asked (.delete hk) (hm ▸ .delete key)

theorem does_flush (hp : pathOf r.target = Route.word "/flush") : DoesWell default r s .flush :=
  ⟨.json 200 (keyAnswer "*" "flushed"), _, rfl, rfl, .asked (.flush hp) .flush⟩

theorem does_health (hp : pathOf r.target = Route.word "/health") : DoesWell default r s .health :=
  ⟨_, s, rfl, rfl, .health hp rfl⟩

/-- What a step shows and does. -/
theorem rules_of_gives {now : Nat} {m m' : TimedMap} {d : Step} {key : String} {a : Answer Reply}
    (h : Gives now m (.call (.step d key)) a m') :
    ∃ status body, Response.ofAnswer (fun _ => keyAnswer key (steppedWord d)) a =
      .json status body ∧ Rules now m (.step d key) status body m' := by
  cases h with
  | step he hl hv hk hn => exact ⟨_, _, rfl, .stepped ⟨he, hl⟩ hv hk hn⟩
  | atBound hl hb =>
    obtain ⟨e, he, hn, hv⟩ := look_eq_ok_iff.mp hl
    refine ⟨_, _, ?_, .atBound ⟨he, hn⟩ hv hb⟩
    cases d <;> rfl
  | notInteger hl hv =>
    obtain ⟨e, he, hn, rfl⟩ := look_eq_ok_iff.mp hl
    exact ⟨_, _, rfl, .notInteger ⟨he, hn⟩ hv⟩
  | unread hl =>
    unfold look at hl
    split at hl
    · rename_i he
      obtain rfl := Except.error.inj hl
      exact ⟨_, _, rfl, .stepAbsent he⟩
    · rename_i e he
      split at hl
      · cases hl
      · rename_i hn
        obtain rfl := Except.error.inj hl
        exact ⟨_, _, rfl, .stepExpired ⟨e, he, hn⟩⟩

/-- A step by itself. -/
theorem advance_step (d : Step) (key : String) (s : Solo) :
    (Solo.memory.cache.step d key).advance s =
      match s.engine.table.step s.instant key d with
      | .ok t => (.done (.ok ()), { s with engine := { s.engine with table := t } })
      | .error x => (.done (.error x), s) := by
  change (Solo.memory.attempt fun now e => do
    return { e with table := ← e.table.step now key d }).advance s = _
  have hi : Clock.instant s = s.instant := rfl
  cases ht : s.engine.table.step s.instant key d <;>
    simp [Solo.memory, Memory.attempt, Process.step, Process.advance, Functor.map, Except.map, hi,
      ht]

/-- The answer of a handler that steps a key. -/
theorem comes_step {d : Step} {key method : String}
    (ha : Asks default r method (.step d key)) :
    Comes ((Solo.memory.cache.step d key).bind fun a =>
        .done (.ofAnswer (fun _ => keyAnswer key (steppedWord d)) a)) s
      (Handles default s.instant s.engine.table.find? r method) := by
  have hs := advance_step d key s
  cases ht : s.engine.table.step s.instant key d with
  | ok t =>
    rw [ht] at hs
    obtain ⟨status, body, he, hr⟩ := rules_of_gives (gives_step ht)
    exact ⟨.json status body, { s with engine := { s.engine with table := t } },
      (advance_bind_of_done hs).trans (by rw [← he]; rfl), rfl, .asked ha hr⟩
  | error x =>
    rw [ht] at hs
    obtain ⟨status, body, he, hr⟩ := rules_of_gives (gives_refuse ht)
    exact ⟨.json status body, s, (advance_bind_of_done hs).trans (by rw [← he]; rfl), rfl,
      .asked ha hr⟩

theorem does_up (hs : IsSegment segment) (hp : pathOf r.target = Route.word "/incr/" ++ segment) :
    DoesWell default r s (.step .up segment) :=
  comes_withKey (by simp) hs hp (fun _ hk => comes_step (.up hk)) fun _ => .declined

theorem does_down (hs : IsSegment segment) (hp : pathOf r.target = Route.word "/decr/" ++ segment) :
    DoesWell default r s (.step .down segment) :=
  comes_withKey (by simp) hs hp (fun _ hk => comes_step (.down hk)) fun _ => .declined

/-- The seconds of a request are stored for as long as they say. -/
theorem lasts_of_setForm {f : Form} {q : SetRequest} (h : SetForm f q) :
    Lasts default q.ttl ((q.ttl.map Duration.ofSecs).getD default) := by
  have hf : q.ttl = none ∨ ∃ g, StandsFor g q.ttl := by
    cases h with
    | object _ _ ht _ => exact ht.imp (·.2) fun ⟨g, _, hg⟩ => ⟨g, hg⟩
    | pair _ => exact .inl rfl
    | triple _ hg => exact .inr ⟨_, hg⟩
  rcases hf with hn | ⟨g, hg⟩
  · rw [hn]
    rfl
  · cases hq : q.ttl with
    | none => rfl
    | some n =>
      rw [hq] at hg
      cases hg with
      | @secs l n hn hl =>
        have hn := hn.2
        change (Duration.ofNanos (n * 1_000_000_000)).toNanos = n * 1_000_000_000
        rw [Duration.toNanos_ofNanos, Duration.maxNanos]
        omega

theorem does_set (hp : pathOf r.target = Route.word "/set") : DoesWell default r s .set := by
  unfold DoesWell handle
  rcases read_cases SetRequest.read r with ⟨f, q, hf, hq, hr⟩ |
    ⟨f, e, status, reason, hf, he, hs, hr⟩ | ⟨hj, hr⟩ | ⟨hj, hs, hr⟩
  · have hq := SetRequest.read_eq_ok_iff.mp hq
    rw [hr]
    by_cases hk : q.key = ""
    · simp only [setValue, SetRequest.problem?, if_pos hk]
      exact comes_done (.declined (.emptyKey hp hf hq hk))
    · simp only [setValue, SetRequest.problem?, if_neg hk]
      generalize hd : (q.ttl.map Duration.ofSecs).getD default = ttl
      have hm := find?_put s.engine.table s.instant q.key q.value ttl
      refine ⟨.json 200 (keyAnswer q.key "set"), _, rfl, rfl, ?_⟩
      exact .asked (.set hp hf hq hk (hd ▸ lasts_of_setForm hq)) (hm ▸ .set q.key q.value ttl)
  · rw [hr]
    refine comes_done (.declined (.noSet hp hf (fun q hq => ?_) hs))
    rw [SetRequest.read_eq_ok_iff.mpr hq] at he
    cases he
  · rw [hr]
    exact comes_done (.declined (.noJson (by simp) hp hj))
  · rw [hr]
    exact comes_done (.declined (.tooLong (by simp) hp hj hs))

theorem json_of_slots (t : Table) (now : Nat) (keys : List String) :
    (Batch.slots (keys.map fun k => (k, t.read now k))).map slotJson =
      keys.map (slotOf now t.find?) := by
  rw [Batch.slots, List.map_map, List.map_map]
  refine List.map_congr_left fun k _ => ?_
  rcases reads_cases t now k with ⟨e, he, hr⟩ | ⟨he, hr⟩ | ⟨⟨e, he, hl⟩, hr⟩
  · simp [hr, slotOf, he.1, he.2, Batch.slot, slotJson]
  · simp [hr, slotOf, he, Batch.slot, slotJson]
  · simp [hr, slotOf, he, hl, Batch.slot, slotJson]

theorem missing_eq (t : Table) (now : Nat) (keys : List String) :
    Batch.failures (keys.map fun k => (k, t.read now k)) =
      keys.filterMap (missing? now t.find?) := by
  rw [Batch.failures, List.filterMap_map]
  refine List.filterMap_congr fun k _ => ?_
  rcases reads_cases t now k with ⟨e, he, hr⟩ | ⟨he, hr⟩ | ⟨⟨e, he, hl⟩, hr⟩
  · simp [hr, missing?, he.1, he.2, Batch.failure?]
  · simp only [Function.comp_apply, hr, missing?, he]
    rfl
  · simp only [Function.comp_apply, hr, missing?, he, if_neg hl]
    rfl

/-- A batch is answered with what it shows of each key and what it complains of. -/
theorem advance_getValues (q : MultiGetRequest) (s : Solo) :
    (getValues Solo.memory.cache q).advance s =
      (.done (.json 200 (.obj
        [("values", .arr (q.keys.map (slotOf s.instant s.engine.table.find?))),
          ("errors", .arr ((q.keys.filterMap
            (missing? s.instant s.engine.table.find?)).map .str))])), s) := by
  rw [← json_of_slots, ← missing_eq]
  have hg : (Solo.memory.cache.getMulti q.keys).advance s =
      (.done (Batch.collect (q.keys.map fun k => (k, s.engine.table.read s.instant k))), s) := rfl
  refine (advance_bind_of_done hg).trans ?_
  generalize ho : (q.keys.map fun k => (k, s.engine.table.read s.instant k)) = outcomes
  by_cases hf : Batch.failures outcomes = []
  · have hc : Batch.collect outcomes = .ok (Batch.slots outcomes) := by simp [Batch.collect, hf]
    rw [hc, hf]
    rfl
  · have hc : Batch.collect outcomes =
        .error (.multiGetFailed (Batch.slots outcomes) (Batch.failures outcomes)) := by
      simp [Batch.collect, hf]
    rw [hc]
    rfl

theorem does_multiGet (hp : pathOf r.target = Route.word "/mget") :
    DoesWell default r s .multiGet := by
  unfold DoesWell handle
  rcases read_cases MultiGetRequest.read r with ⟨f, q, hf, hq, hr⟩ |
    ⟨f, e, status, reason, hf, he, hs, hr⟩ | ⟨hj, hr⟩ | ⟨hj, hs, hr⟩
  · rw [hr]
    exact ⟨_, s, advance_getValues q s, rfl,
      .asked (.multiGet hp hf (MultiGetRequest.read_eq_ok_iff.mp hq)) (.multiGet q.keys)⟩
  · rw [hr]
    refine comes_done (.declined (.noMultiGet hp hf (fun keys hk => ?_) hs))
    rw [MultiGetRequest.read_eq_ok_iff (r := ⟨keys⟩) |>.mpr hk] at he
    cases he
  · rw [hr]
    exact comes_done (.declined (.noJson (by simp) hp hj))
  · rw [hr]
    exact comes_done (.declined (.tooLong (by simp) hp hj hs))

/-- **Every handler does as the request asks.** -/
theorem does_of_leads {x : Route} (h : Leads (pathOf r.target) x) : DoesWell default r s x := by
  generalize hp : pathOf r.target = path at h
  cases h with
  | set => exact does_set hp
  | multiGet => exact does_multiGet hp
  | flush => exact does_flush hp
  | health => exact does_health hp
  | get hs => exact does_get hs hp
  | delete hs => exact does_delete hs hp
  | up hs => exact does_up hs hp
  | down hs => exact does_down hs hp
  | «exists» hs => exact does_isExist hs hp

end Handlers

/-! ## The server -/

/-- What a handler comes to is what the server answers where the method is taken. -/
theorem serves_of_handles {now : Nat} {m m' : TimedMap} {x : Route} {e : Response}
    (hx : Leads (pathOf r.target) x) (hm : Takes x.method r.method)
    (h : Handles default now m r x.method e m') :
    Serves default now m r (sent r.method e) m' := by
  generalize hw : x.method = method at h hm
  cases h with
  | asked ha h => exact .asked ha hm h
  | health hp hg => exact .health hp (hg ▸ hm)
  | declined h => exact .declined hx (hw ▸ hm) h

theorem takes_iff {x : Route} {given : String} :
    Takes x.method given ↔ given = x.method ∨ x.allowed.contains given = true := by
  cases x <;> simp [Takes, Route.method, Route.allowed]

theorem method_ne (x : Route) : x.method ≠ "HEAD" ∧ x.method ≠ "OPTIONS" := by
  cases x <;> simp [Route.method]

theorem allowOf_ofPath? (path : List UInt8) :
    allowOf path ((Route.ofPath? path).map fun x => ",".intercalate x.allowed) := by
  cases h : Route.ofPath? path with
  | some x => exact .inl ⟨x, leads_of_ofPath? h, rfl⟩
  | none => exact .inr ⟨fun x hx => (nomatch h.symm.trans (ofPath?_of_leads hx)), rfl⟩

/-- **Every request is answered by the rules**, whatever it holds and whatever the map is. -/
theorem serves_of_serve (default : Duration) (r : Request) (s : Solo) :
    Comes (serve Solo.memory.cache default r) s
      (Serves default s.instant s.engine.table.find? r) := by
  unfold serve
  by_cases ho : r.method = "OPTIONS"
  · rw [if_pos ho]
    exact comes_done (.preflight ho (allowOf_ofPath? _))
  rw [if_neg ho]
  cases hp : Route.ofPath? (pathOf r.target) with
  | none => exact comes_done (.unrouted ho fun x hx => nomatch hp.symm.trans (ofPath?_of_leads hx))
  | some x =>
    have hx := leads_of_ofPath? hp
    have hd : DoesWell default r s x := does_of_leads hx
    by_cases hm : r.method = x.method
    · simp only [if_pos hm]
      refine hd.mono fun e m h => ?_
      have hs := serves_of_handles hx (.inl hm) h
      rwa [sent, if_neg (hm ▸ (method_ne x).1)] at hs
    · simp only [if_neg hm]
      by_cases ha : x.allowed.contains r.method = true
      · rw [if_pos ha]
        refine comes_map hd fun e m h => ?_
        have ht : Takes x.method r.method := takes_iff.mpr (.inr ha)
        have hs := serves_of_handles hx ht h
        rwa [sent, if_pos (ht.resolve_left hm).1] at hs
      · rw [if_neg ha]
        exact comes_done (.wrongMethod ho hx fun ht => (takes_iff.mp ht).elim hm ha)

/-! ## Runs -/

/-- What can happen at a server: a request comes, a reclamation pass takes its next step, or time
passes. -/
inductive Happening (ι : Type) where
  | request (r : Request)
  | reclaim (i : ι)
  | elapse (nanos : Nat)

/-- What is seen of it: the answer to a request, if there is one, and that a pass took a step. -/
inductive Note where
  | visit (instant : Nat) (r : Request) (answer : Option Response)
  | pass (instant : Nat)

/-- The passes that may go on, some of them asked for by hand and some of them by the loop. -/
def passes {ι : Type} (ticks : ι → Bool) (i : ι) : Solo.Task := if ticks i then .tick else .pass

section Runs

variable {ι : Type} [DecidableEq ι]

/-- What is seen of what happens, in order, and the server afterwards. -/
def watched (default : Duration) :
    List (Happening ι) → Pool ι Solo (Answer Reply) → List Note × Pool ι Solo (Answer Reply)
  | [], p => ([], p)
  | .request r :: hs, p =>
    let (q, s) := (serve Solo.memory.cache default r).advance p.state
    let (log, p') := watched default hs ⟨s, p.threads⟩
    (.visit p.state.instant r q.answer? :: log, p')
  | .reclaim i :: hs, p =>
    let (log, p') := watched default hs (p.turn Solo.elapse (.go i))
    (.pass p.state.instant :: log, p')
  | .elapse nanos :: hs, p => watched default hs (p.turn Solo.elapse (.outside nanos))

/-- **The timed map explains a log**, and comes to `m'`: every request is answered, by the rules at
its instant, and a step of a pass takes out some of what is expired or nothing. -/
def Accounts (default : Duration) : TimedMap → List Note → TimedMap → Prop
  | m, [], m' => m' = m
  | m, .visit now r answer :: log, m' =>
    ∃ e n, answer = some e ∧ Serves default now m r e n ∧ Accounts default n log m'
  | m, .pass now :: log, m' => ∃ n, Faded now m n ∧ Accounts default n log m'

omit [DecidableEq ι] in
theorem isPass_passes (ticks : ι → Bool) (i : ι) : (passes ticks i).isPass = true := by
  unfold passes
  split <;> rfl

/-- A turn of a pass takes out what is expired or nothing. -/
theorem faded_of_moved {ticks : ι → Bool} {p p' : Pool ι Solo (Answer Reply)} {i : ι}
    {x : Option (Pool.Event ι Solo (Answer Reply))} (hu : Solo.Underway (passes ticks) p)
    (h : Pool.Moved Solo.elapse p (.go i) x p') :
    Faded p.state.instant p.state.engine.table.find? p'.state.engine.table.find? := by
  cases h with
  | still => exact faded_refl _ _
  | step hq hn =>
    have hs := Solo.steps_of_next? (hu _ _ hq) hn
    generalize ht : passes ticks i = task at hs
    cases hs with
    | pass hp h =>
      rw [← Solo.instant_of_passes h]
      exact faded_of_passes (faded_refl _ _) h
    | call | drainLive => exact absurd (isPass_passes ticks i) (by rw [ht]; simp [Solo.Task.isPass])

/-- The induction is on what happens; the passes that go on are carried along. -/
theorem accounts_watched {ticks : ι → Bool} :
    ∀ (hs : List (Happening ι)) {p : Pool ι Solo (Answer Reply)},
      Solo.Underway (passes ticks) p →
      Accounts default p.state.engine.table.find? (watched default hs p).1
        (watched default hs p).2.state.engine.table.find?
  | [], p, _ => rfl
  | .request r :: hs, p, hu => by
    obtain ⟨e, s, ha, -, hr⟩ := serves_of_serve default r p.state
    rw [watched, ha]
    exact ⟨e, _, rfl, hr, accounts_watched hs (p := ⟨s, p.threads⟩) hu⟩
  | .reclaim i :: hs, p, hu => by
    have hm := Pool.moved_turn Solo.elapse p (.go i)
    rw [watched]
    exact ⟨_, faded_of_moved hu hm,
      accounts_watched hs (Solo.underway_turned hu (Solo.turned_of_moved hu hm))⟩
  | .elapse nanos :: hs, p, hu => by
    have hm := Pool.moved_turn Solo.elapse p (.outside nanos)
    exact accounts_watched hs (Solo.underway_turned hu (Solo.turned_of_moved hu hm))

/-- **The answers over HTTP are those of a timed map.** Requests of every kind in every order over
a memory cache, with time passing and reclamation passes going on between them: each is answered,
by the rules of the map at its instant, and what is left in the cache is what is left in the map. -/
theorem run_served (default : Duration) (ticks : ι → Bool) (engine : Engine) (now : Nat)
    (hs : List (Happening ι)) :
    let (log, p) := watched default hs (Solo.pool (passes ticks) engine now)
    Accounts default engine.table.find? log p.state.engine.table.find? :=
  accounts_watched hs (Solo.underway_pool (passes ticks) engine now)

end Runs

end LayeredCache.Http
