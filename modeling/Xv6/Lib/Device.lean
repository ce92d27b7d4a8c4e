/-
A block device: contents by block number, changed by a sequence of writes each of
which is atomic and durable. A crash keeps a prefix of the sequence, so the facts
here are about prefixes: a block no write touches keeps its contents, and of writes to
distinct blocks each leaves its block as written.
-/
import Mathlib

namespace Xv6.Lib.Device

variable {β : Type}

/-- The device after the writes `ws`, oldest first. -/
def applyWrites (ws : List (Nat × β)) (d : Nat → β) : Nat → β :=
  ws.foldl (fun d w => Function.update d w.1 w.2) d

@[simp] theorem applyWrites_nil (d : Nat → β) : applyWrites [] d = d := rfl

@[simp] theorem applyWrites_cons (w : Nat × β) (ws : List (Nat × β)) (d : Nat → β) :
    applyWrites (w :: ws) d = applyWrites ws (Function.update d w.1 w.2) := rfl

@[simp] theorem applyWrites_append (ws vs : List (Nat × β)) (d : Nat → β) :
    applyWrites (ws ++ vs) d = applyWrites vs (applyWrites ws d) := by
  simp [applyWrites, List.foldl_append]

/-- A block no write touches keeps its contents. -/
theorem applyWrites_other {ws : List (Nat × β)} {d : Nat → β} {b : Nat} (h : ∀ w ∈ ws, w.1 ≠ b) :
    applyWrites ws d b = d b := by
  induction ws generalizing d with
  | nil => rfl
  | cons w ws ih =>
    rw [applyWrites_cons, ih fun v hv => h v (List.mem_cons_of_mem _ hv),
      Function.update_of_ne (h w List.mem_cons_self).symm]

/-- Writes to distinct blocks: each block written holds what was written to it. -/
theorem applyWrites_mem {ws : List (Nat × β)} (hn : (ws.map Prod.fst).Nodup) {d : Nat → β} {w : Nat × β}
    (hw : w ∈ ws) : applyWrites ws d w.1 = w.2 := by
  induction ws generalizing d with
  | nil => simp at hw
  | cons v ws ih =>
    simp only [List.map_cons, List.nodup_cons, List.mem_map, not_exists, not_and] at hn
    rcases List.mem_cons.mp hw with rfl | hw
    · rw [applyWrites_cons, applyWrites_other fun v hv => hn.1 v hv, Function.update_self]
    · rw [applyWrites_cons, ih hn.2 hw]

end Xv6.Lib.Device
