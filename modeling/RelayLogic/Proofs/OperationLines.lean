import Mathlib.Data.List.Basic
import RelayLogic.Console.Plan
import RelayLogic.Proofs.Image
import RelayLogic.Proofs.StatementText

/-! Lines of operations. A line begins with the name of the instruction, filled up to twelve
characters before an index, so that it tells the instruction and the index. What is listed can be
told from its listing. -/
namespace RelayLogic

namespace Instruction

theorem mem_all (i : Instruction) : i ∈ all := by cases i <;> decide

/-- The first twelve characters of a line. -/
def label (i : Instruction) : List Char :=
  match i.access? with
  | some _ => i.name.toList.rightpad Operation.nameWidth ' '
  | none => i.name.toList

theorem length_label_le (i : Instruction) : i.label.length ≤ Operation.nameWidth := by
  cases i <;> decide

theorem length_label {i : Instruction} (access : i.access? ≠ none) :
    i.label.length = Operation.nameWidth := by
  revert access
  cases i <;> decide

theorem label_inj {i j : Instruction} (same : i.label = j.label) : i = j := by
  have each : ∀ i ∈ all, ∀ j ∈ all, i.label = j.label → i = j := by decide +kernel
  exact each i i.mem_all j j.mem_all same

theorem lineFeed_not_mem_label (i : Instruction) : '\n' ∉ i.label := by
  cases i <;> decide

end Instruction

namespace Operation

variable {op op' : Operation}

theorem toList_render_access (access : op.instruction.access? ≠ none) :
    op.render.toList = op.instruction.label ++ ' ' :: op.argument.repr.toList := by
  obtain ⟨a, found⟩ := Option.ne_none_iff_exists'.1 access
  simp only [render, Instruction.label, found, padRight, String.toList_append, String.toList_ofList,
    List.append_assoc]
  rfl

theorem toList_render_logic (logical : op.instruction.access? = none) :
    op.render.toList = op.instruction.label := by
  simp only [render, Instruction.label, logical]

theorem label_eq_take (op : Operation) :
    op.instruction.label = op.render.toList.take nameWidth := by
  by_cases logical : op.instruction.access? = none
  · rw [toList_render_logic logical]
    exact (List.take_of_length_le op.instruction.length_label_le).symm
  · rw [toList_render_access logical, ← Instruction.length_label logical, List.take_left']
    rfl

/-- A line tells its operation, but for the index of a logical one. -/
theorem shown_eq_of_render (same : op.render = op'.render) : op.shown = op'.shown := by
  have instruction : op.instruction = op'.instruction := by
    apply Instruction.label_inj
    rw [label_eq_take, label_eq_take, same]
  rcases op with ⟨i, n⟩
  rcases op' with ⟨j, n'⟩
  obtain rfl : i = j := instruction
  cases access : i.access? with
  | none => simp only [shown, access]
  | some a =>
      have some : i.access? ≠ none := by simp [access]
      have lines := congrArg String.toList same
      rw [toList_render_access some, toList_render_access some] at lines
      have digits := (List.cons.inj (List.append_cancel_left lines)).2
      have number : n = n' := Nat.repr_inj.1 (String.toList_inj.1 digits)
      rw [number]

theorem lineFeed_not_mem_render (op : Operation) : '\n' ∉ op.render.toList := by
  by_cases logical : op.instruction.access? = none
  · rw [toList_render_logic logical]
    exact op.instruction.lineFeed_not_mem_label
  · rw [toList_render_access logical, List.mem_append, List.mem_cons, not_or, not_or]
    refine ⟨op.instruction.lineFeed_not_mem_label, by decide, fun inside => ?_⟩
    have digit := isDigit_of_mem_repr inside
    cases digit

end Operation

theorem toList_opsText_cons (op : Operation) (ops : List Operation) :
    (opsText (op :: ops)).toList = op.render.toList ++ '\n' :: (opsText ops).toList := by
  rw [opsText, unlines, List.map_cons, List.map_cons, String.join_cons, String.toList_append,
    String.toList_append, List.append_assoc]
  rfl

theorem opsText_cons_ne_nil (op : Operation) (ops : List Operation) :
    opsText (op :: ops) ≠ opsText [] := by
  intro same
  have empty := congrArg String.toList same
  rw [toList_opsText_cons] at empty
  cases (List.append_eq_nil_iff.1 empty).2

/-- Two listings that look alike are of the same operations. -/
theorem shown_eq_of_opsText {ops ops' : List Operation} (same : opsText ops = opsText ops') :
    ops.map Operation.shown = ops'.map Operation.shown := by
  induction ops generalizing ops' with
  | nil =>
      cases ops' with
      | nil => rfl
      | cons op' ops' => exact absurd same.symm (opsText_cons_ne_nil op' ops')
  | cons op ops ih =>
      cases ops' with
      | nil => exact absurd same (opsText_cons_ne_nil op ops)
      | cons op' ops' =>
          have split := congrArg String.toList same
          rw [toList_opsText_cons, toList_opsText_cons] at split
          obtain ⟨first, rest⟩ :=
            cut_unique op.lineFeed_not_mem_render op'.lineFeed_not_mem_render split
          rw [List.map_cons, List.map_cons, ih (String.toList_inj.1 rest),
            Operation.shown_eq_of_render (String.toList_inj.1 first)]

end RelayLogic
