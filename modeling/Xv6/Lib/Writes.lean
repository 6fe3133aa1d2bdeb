import Mathlib.Logic.Function.Basic

/-! Lists of writes to a store, applied in order: the last write to a place is the one that counts. And lists
    of places, to which a place is added when it is written for the first time. -/

namespace Lib

section Writes
variable {κ β : Type} [DecidableEq κ]

/-- The store `d` after the writes `ws`. -/
def applyWrites (d : κ → β) (ws : List (κ × β)) : κ → β := ws.foldl (fun d w => Function.update d w.1 w.2) d

@[simp] theorem applyWrites_nil (d : κ → β) : applyWrites d [] = d := rfl

theorem applyWrites_append (d : κ → β) (ws ws' : List (κ × β)) :
    applyWrites d (ws ++ ws') = applyWrites (applyWrites d ws) ws' :=
  List.foldl_append ..

theorem applyWrites_snoc (d : κ → β) (ws : List (κ × β)) (w : κ × β) :
    applyWrites d (ws ++ [w]) = Function.update (applyWrites d ws) w.1 w.2 :=
  applyWrites_append d ws [w]

/-! ### Places in the order of their first write -/

section Places
variable {l : List κ} {b b' : κ}

theorem mem_append_new : b' ∈ (if b ∈ l then l else l ++ [b]) ↔ b' ∈ l ∨ b' = b := by
  split
  · rename_i hb
    exact ⟨.inl, fun hor => hor.elim id fun e => e ▸ hb⟩
  · simp

theorem nodup_append_new (h : l.Nodup) : (if b ∈ l then l else l ++ [b]).Nodup := by
  split
  · exact h
  · rename_i hb
    refine List.nodup_append.mpr ⟨h, by simp, fun b' hb' b'' hb'' => ?_⟩
    rw [List.mem_singleton.mp hb'']
    exact fun e => hb (e ▸ hb')

theorem length_append_new_le : (if b ∈ l then l else l ++ [b]).length ≤ l.length + 1 := by
  split <;> simp

end Places

end Writes

end Lib
