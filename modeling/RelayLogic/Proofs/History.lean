/-! Histories of calls. A machine answers a call and goes on in another state. Two machines that
answer alike in states that are related, and are related again afterwards, cannot be told apart by
any history of calls. -/
namespace RelayLogic

variable {σ τ κ ρ : Type}

/-- The replies to calls made one after another, and the state that they leave. -/
def history (answer : σ → κ → ρ × σ) (s : σ) (calls : List κ) : List ρ × σ :=
  StateT.run (m := Id) (calls.mapM fun call s => answer s call) s

/-- Whether two machines, in related states, give each call the same answer and stay related. -/
def Simulates (answer : σ → κ → ρ × σ) (answer' : τ → κ → ρ × τ) (related : σ → τ → Prop) : Prop :=
  ∀ s t call, related s t →
    (answer s call).1 = (answer' t call).1 ∧ related (answer s call).2 (answer' t call).2

variable {answer : σ → κ → ρ × σ} {answer' : τ → κ → ρ × τ} {related : σ → τ → Prop}

@[simp] theorem history_nil (s : σ) : history answer s [] = ([], s) := rfl

@[simp] theorem history_cons (s : σ) (call : κ) (rest : List κ) :
    history answer s (call :: rest) =
      ((answer s call).1 :: (history answer (answer s call).2 rest).1,
        (history answer (answer s call).2 rest).2) := by
  simp only [history, List.mapM_cons]
  rfl

theorem Simulates.history (alike : Simulates answer answer' related) {s : σ} {t : τ}
    (start : related s t) (calls : List κ) :
    (history answer s calls).1 = (history answer' t calls).1 ∧
      related (history answer s calls).2 (history answer' t calls).2 := by
  induction calls generalizing s t with
  | nil => exact ⟨rfl, start⟩
  | cons call rest ih =>
      obtain ⟨same, next⟩ := alike s t call start
      obtain ⟨same', last⟩ := ih next
      rw [history_cons, history_cons]
      exact ⟨List.cons_eq_cons.2 ⟨same, same'⟩, last⟩

/-- What holds of the reply to every single call holds of all replies. -/
theorem forall_mem_history {p : ρ → Prop} (each : ∀ s call, p (answer s call).1) (s : σ)
    (calls : List κ) : ∀ reply ∈ (history answer s calls).1, p reply := by
  induction calls generalizing s with
  | nil => exact fun _ none => nomatch none
  | cons call rest ih =>
      rw [history_cons]
      exact List.forall_mem_cons.2 ⟨each s call, ih _⟩

end RelayLogic
