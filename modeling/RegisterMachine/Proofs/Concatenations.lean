import RegisterMachine.Metatable

/-! Concatenation of many values. Runs of strings and numbers are joined at once; that comes to the same as
concatenating two values at a time, from the right. -/
namespace RegisterMachine.Script

/-- Concatenates two values: their texts in a row when both are strings or numbers, and otherwise what the handler
of the left one gives, or that of the right one. -/
def concatTwo (left right : Value) : Script Value :=
  if left.isStringable && right.isStringable then
    .done (.str (left.stringableText ++ right.stringableText))
  else .look fun m =>
    let own := m.heap.metamethod left "__concat"
    let handler := if own.isNil then m.heap.metamethod right "__concat" else own
    if handler.isNil then .fail (.typeError "concatenate" (if left.isStringable then right else left))
    else callOne handler [left, right]

variable {run : List Value} {last : Value}

theorem isStringable_joined (h : run ≠ [] → last.isStringable = true) :
    (joined run last).isStringable = last.isStringable := by
  rw [joined]
  split
  · rfl
  · rename_i hrun
    exact (h fun he => hrun (he ▸ rfl)).symm

theorem stringableText_joined :
    (joined run last).stringableText = String.join (run.map Value.stringableText) ++ last.stringableText := by
  rw [joined]
  split
  · rename_i hrun
    rw [List.isEmpty_iff.1 hrun]
    exact (String.empty_append ..).symm
  · rfl

theorem joined_cons (left : Value) :
    joined (left :: run) last = .str (left.stringableText ++ (joined run last).stringableText) := by
  rw [stringableText_joined, joined, ← String.append_assoc]
  simp only [List.isEmpty_cons, Bool.false_eq_true, if_false, List.map_cons, String.join_cons]

theorem binaryEvent_eq_concatTwo {left right : Value} (h : (left.isStringable && right.isStringable) = false) :
    binaryEvent left right "__concat" (.typeError "concatenate" (if left.isStringable then right else left)) =
      concatTwo left right := by
  simp only [concatTwo, h, Bool.false_eq_true, if_false, binaryEvent]
  congr 1
  funext m
  unfold Heap.binaryHandler
  cases m.heap.metamethod left "__concat" <;> cases m.heap.metamethod right "__concat" <;> rfl

theorem concatInto_eq (h : run ≠ [] → last.isStringable = true) (rest : List Value) :
    concatInto run last rest = rest.foldlM (fun right left => concatTwo left right) (joined run last) := by
  induction rest generalizing run last with
  | nil => rfl
  | cons left rest ih =>
    rw [concatInto, List.foldlM_cons]
    split
    · rename_i hboth
      have hlast := (Bool.and_eq_true_iff.1 hboth).2
      rw [ih fun _ => hlast, concatTwo, isStringable_joined h, if_pos hboth, joined_cons]
      rfl
    · rename_i hboth
      have hsplit : (left.isStringable && (joined run last).isStringable) = false := by
        rw [isStringable_joined h]
        exact Bool.not_eq_true _ ▸ hboth
      show (binaryEvent left (joined run last) _ _ >>= fun v => concatInto [] v rest) = _
      rw [binaryEvent_eq_concatTwo hsplit]
      exact bind_congr fun v => ih fun h => absurd rfl h

/-- All values at once come to the same as two at a time from the right: the same handlers are called in the same
order with the same arguments, and the result or the fault is the same. -/
theorem concat_eq_foldrM (vs : List Value) (last : Value) : concat (vs ++ [last]) = vs.foldrM concatTwo last := by
  rw [concat, List.reverse_append, List.reverse_singleton, List.singleton_append]
  exact concatInto_eq (fun h => absurd rfl h) vs.reverse

end RegisterMachine.Script
