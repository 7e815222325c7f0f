/-!
# Slots

A slot names one part of a larger state: how to read it and how to replace it. What is written to
a slot is what is read from it next. It may do more than replace: a slot whose writes are recorded
elsewhere in the state is one, too.

A bank is a row of slots of one type, numbered from zero; those never written hold the default.

Results:
* `Bank.get_set`: writing one place of a bank leaves the others as they are.
-/

namespace LayeredCache

/-- One part of a state. -/
structure Slot (σ α : Type) where
  get : σ → α
  set : α → σ → σ
  get_set : ∀ a s, get (set a s) = a

namespace Slot

variable {σ α β : Type}

/-- Changes the part and answers. -/
def update (slot : Slot σ α) (f : α → β × α) (s : σ) : β × σ :=
  let (b, a) := f (slot.get s)
  (b, slot.set a s)

/-- Changes the part. -/
def modify (slot : Slot σ α) (f : α → α) (s : σ) : σ := slot.set (f (slot.get s)) s

theorem get_modify (slot : Slot σ α) (f : α → α) (s : σ) :
    slot.get (slot.modify f s) = f (slot.get s) := slot.get_set _ _

end Slot

/-- Places numbered from zero; beyond the list they hold the default. -/
structure Bank (α : Type) where
  places : List α
  deriving Inhabited

namespace Bank

variable {α : Type} [Inhabited α]

def get (b : Bank α) (i : Nat) : α := b.places.getD i default

/-- The list with the element at `i` replaced, grown by defaults where it is too short. -/
def replace (a : α) : Nat → List α → List α
  | 0, [] => [a]
  | 0, _ :: r => a :: r
  | i + 1, [] => default :: replace a i []
  | i + 1, x :: r => x :: replace a i r

def set (b : Bank α) (i : Nat) (a : α) : Bank α := ⟨replace a i b.places⟩

theorem getD_replace (a : α) (i j : Nat) (l : List α) :
    (replace a i l).getD j default = if j = i then a else l.getD j default := by
  induction i generalizing j l with
  | zero => cases l <;> cases j <;> simp [replace]
  | succ i ih =>
    cases l with
    | nil =>
      cases j with
      | zero => simp [replace]
      | succ j => simpa [replace] using ih j []
    | cons x r =>
      cases j with
      | zero => simp [replace]
      | succ j => simpa [replace] using ih j r

theorem get_set (b : Bank α) (i j : Nat) (a : α) :
    (b.set i a).get j = if j = i then a else b.get j := getD_replace a i j b.places

/-- One place of a bank that is itself a part of a state. -/
def slot {σ : Type} (whole : Slot σ (Bank α)) (i : Nat) : Slot σ α where
  get s := (whole.get s).get i
  set a s := whole.set ((whole.get s).set i a) s
  get_set a s := by simp [whole.get_set, get_set]

end Bank
end LayeredCache
