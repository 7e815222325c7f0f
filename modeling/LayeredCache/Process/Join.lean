import LayeredCache.Process.Basic

/-!
# Processes side by side

Several processes run side by side as one. Each turn goes through them in order and lets every one
that is ready run until it waits; the whole waits when all of them do. It ends when all have ended,
with their answers in order, and giving it up gives up those that still wait.

When the whole goes on from a wait, the first process whose wait is over has the next turn.
-/

namespace LayeredCache.Process

variable {σ α β γ : Type} [Clock σ]

/-- Runs a process while another one waits for `w`. It goes on by `resume` once the other one is
ready and this one waits, and by `alone` if this one ends first. -/
def beside (w : Wait σ) (abandon : σ → σ) (resume : σ → Process σ β → Process σ γ)
    (alone : β → σ → Process σ γ) : Process σ β → Process σ γ
  | .done b => .wait w abandon (alone b)
  | .act g k => .act g fun s => (k s).beside w abandon resume alone
  | .wait v c k => look fun s =>
    if v.ready s then (k s).beside w abandon resume alone
    else .wait (.either w v) (fun s => c (abandon s)) fun s =>
      if w.ready s then resume s (.wait v c k) else (k s).beside w abandon resume alone

/-- Two processes side by side; the first one has the first turn. -/
def both : Process σ α → Process σ β → Process σ (α × β)
  | .done a, q => (a, ·) <$> q
  | .act g k, q => .act g fun s => (k s).both q
  | .wait w c k, q => look fun s =>
    if w.ready s then (k s).both q
    else q.beside w c (fun s q => (k s).both q) fun b s => (·, b) <$> k s

/-- Processes side by side, earlier ones first in each turn. -/
def all : List (Process σ α) → Process σ (List α)
  | [] => .done []
  | p :: ps => (fun (a, as) => a :: as) <$> p.both (all ps)

end LayeredCache.Process
