import RelayLogic.Proofs.Board

/-! What can be learnt of a machine by calling it. A history of calls gives the same replies on a
memory and on the board that it shows, so no reply tells whether a cell has come into being. After
a reset the calls made before are forgotten. -/
namespace RelayLogic

/-- What may be asked of a machine. -/
inductive Call where
  | get (c : Category) (index : Nat)
  | set (c : Category) (index : Nat) (b : Bool)
  | count (c : Category)
  | reset
  | execute (capacity : Nat) (ops : List Operation)
  | run (capacity : Nat) (ops : List Operation)

/-- What a call tells of the machine. -/
inductive Reply where
  | done
  | bit (b : Bool)
  | cells (count : Nat)
  | failed (fault : Fault)
deriving DecidableEq, Repr

namespace Reply

def ofBit : Except Fault Bool → Reply
  | .error fault => .failed fault
  | .ok b => .bit b

def ofUnit : Except Fault Unit → Reply
  | .error fault => .failed fault
  | .ok () => .done

end Reply

section

variable {σ τ : Type}

/-- The replies to calls made one after another on a machine. `answer` tells what a call replies in
a state, and what state it leaves. -/
def replies (answer : σ → Call → Reply × σ) (s : σ) : List Call → List Reply
  | [] => []
  | call :: rest => (answer s call).1 :: replies answer (answer s call).2 rest

/-- The state that calls leave. -/
def after (answer : σ → Call → Reply × σ) (s : σ) (calls : List Call) : σ :=
  calls.foldl (fun s call => (answer s call).2) s

theorem replies_append (answer : σ → Call → Reply × σ) (s : σ) (first second : List Call) :
    replies answer s (first ++ second) =
      replies answer s first ++ replies answer (after answer s first) second := by
  induction first generalizing s with
  | nil => rfl
  | cons call rest ih => exact congrArg (List.cons _) (ih _)

/-- Where a view of one machine is a machine that answers alike, no replies tell them apart. -/
theorem replies_of_view {answer : σ → Call → Reply × σ} {answer' : τ → Call → Reply × τ}
    {view : σ → τ} (alike : ∀ s call, Prod.map id view (answer s call) = answer' (view s) call)
    (s : σ) (calls : List Call) : replies answer s calls = replies answer' (view s) calls := by
  induction calls generalizing s with
  | nil => rfl
  | cons call rest ih =>
    rw [replies, replies, ← alike, ih]
    rfl

end

namespace Memory

/-- The reply to a call, and the memory that the call leaves. -/
def answer (m : Memory) : Call → Reply × Memory
  | .get c index =>
    match m.load c index with
    | .error fault => (.failed fault, m)
    | .ok (b, m) => (.bit b, m)
  | .set c index b =>
    match m.write c index b with
    | .error fault => (.failed fault, m)
    | .ok m => (.done, m)
  | .count c => (.cells (m.cells c), m)
  | .reset => (.done, m.reset)
  | .execute capacity ops => (m.execute capacity ops).map .ofBit id
  | .run capacity ops => (m.run capacity ops).map .ofUnit id

end Memory

namespace Board

def answer (x : Board) : Call → Reply × Board
  | .get c index => (.ofBit (x.get c index), x)
  | .set c index b =>
    match x.set c index b with
    | .error fault => (.failed fault, x)
    | .ok x => (.done, x)
  | .count c => (.cells (x.counts c), x)
  | .reset => (.done, x.reset)
  | .execute capacity ops => (x.execute capacity ops).map .ofBit id
  | .run capacity ops => (x.run capacity ops).map .ofUnit id

/-- No call makes or removes a cell. -/
theorem counts_answer (x : Board) (call : Call) : (x.answer call).2.counts = x.counts := by
  cases call with
  | get | count => rfl
  | set c index b =>
    simp only [answer, set]
    rcases x.get c index with fault | old
    · rfl
    · exact x.counts_put c index b
  | reset =>
    funext c
    exact List.length_replicate
  | execute capacity ops => exact x.counts_execute capacity ops
  | run capacity ops => exact x.counts_run capacity ops

theorem counts_after (x : Board) (calls : List Call) :
    (after answer x calls).counts = x.counts := by
  induction calls generalizing x with
  | nil => rfl
  | cons call rest ih => exact (ih _).trans (x.counts_answer call)

/-- A reset leaves a fresh board, whatever calls were made before. -/
theorem reset_after_fresh (inputs outputs flags monoflops : Nat) (calls : List Call) :
    (after answer (fresh inputs outputs flags monoflops) calls).reset =
      fresh inputs outputs flags monoflops := by
  have counted := counts_after (fresh inputs outputs flags monoflops) calls
  refine Board.ext (funext fun c => ?_)
  refine (congrArg (List.replicate · false) (congrFun counted c)).trans ?_
  cases c <;> simp [counts, fresh]

end Board

namespace Memory

/-- A call is answered as the board says, and does to the board what the board says. -/
theorem answer_board (m : Memory) (call : Call) :
    Prod.map id board (m.answer call) = m.board.answer call := by
  cases call with
  | get c index =>
    have loaded := m.load_board c index
    simp only [answer, Board.answer]
    split at loaded
    · rename_i missing
      rw [loaded, missing]
      rfl
    · rename_i found
      obtain ⟨n, load, same⟩ := loaded
      rw [load, found]
      exact congrArg (Prod.mk _) same
  | set c index b =>
    have written := m.write_board c index b
    simp only [answer, Board.answer]
    rw [← written]
    rcases m.write c index b with fault | n <;> rfl
  | count c => exact congrArg (fun count => (Reply.cells count, m.board)) (m.length_board c).symm
  | reset => exact congrArg (Prod.mk _) m.board_reset
  | execute capacity ops =>
    simp only [answer, Board.answer]
    rw [← m.execute_board]
    rfl
  | run capacity ops =>
    simp only [answer, Board.answer]
    rw [← m.run_board]
    rfl

/-- Calls on a fresh memory are answered as if all its cells were there from the start, and after a
reset as if they were made on a fresh memory. So the same calls, each time after a reset, are
answered in the same way. -/
theorem replies_fresh (inputs outputs flags monoflops : Nat) (calls again : List Call) :
    let m := fresh inputs outputs flags monoflops
    replies answer m calls =
        replies Board.answer (.fresh inputs outputs flags monoflops) calls ∧
      replies answer m (calls ++ .reset :: again) =
        replies answer m calls ++ .done :: replies answer m again ∧
      replies answer m (calls ++ .reset :: again ++ .reset :: again) =
        replies answer m calls ++ .done :: replies answer m again ++
          .done :: replies answer m again := by
  intro m
  have shown (calls : List Call) : replies answer m calls =
      replies Board.answer (.fresh inputs outputs flags monoflops) calls := by
    rw [replies_of_view answer_board, board_fresh]
  have forgets (calls again : List Call) : replies answer m (calls ++ .reset :: again) =
      replies answer m calls ++ .done :: replies answer m again := by
    rw [shown, shown, shown, replies_append]
    refine congrArg (_ ++ Reply.done :: ·) ?_
    exact congrArg (replies Board.answer · again) (Board.reset_after_fresh ..)
  refine ⟨shown calls, forgets calls again, ?_⟩
  rw [forgets, forgets]

end Memory

end RelayLogic
