import SlotLisp.Machine.Simulation

/-!
# Running the machine

The machine halts on every expression, because it reaches the evaluator's outcome. `eval` runs
it to that end, so it is evaluation within the limit on nested calls (`eval_eq_evalWithin`).
-/

namespace SlotLisp

variable [Host]

namespace Machine

/-- The state `t` comes right after `s`. -/
def Follow (t s : State) : Prop := s.step = .inl t

theorem step_settle_nil (room : Nat) (r : EStateM.Result Error Store Context) :
    (settle room [] r).step = .inr r := by
  cases r <;> rfl

/-- The machine halts when started in a state that reaches a last one. -/
theorem acc_of_reaches {s t : State} {r : EStateM.Result Error Store Context}
    (h : Reaches s t) (ht : t.step = .inr r) : Acc Follow s := by
  induction h with
  | here => exact ⟨_, fun u hu => by rw [Follow, ht] at hu; cases hu⟩
  | step hs _ ih =>
    refine ⟨_, fun u hu => ?_⟩
    rw [Follow, hs] at hu
    cases hu
    exact ih ht

theorem halts (e : Value) (env : ScopeId) (room : Nat) (st : Store) :
    Acc Follow ⟨.form e env, room, [], st⟩ :=
  acc_of_reaches (reaches_evalForm room e env [] st) (step_settle_nil room _)

instance : WellFoundedRelation { s : State // Acc Follow s } where
  rel a b := Follow a.1 b.1
  wf := ⟨fun a => InvImage.accessible Subtype.val a.2⟩

/-- Runs the machine to its end. -/
def run (s : State) (h : Acc Follow s) : EStateM.Result Error Store Context :=
  match hs : s.step with
  | .inl t => run t (h.inv hs)
  | .inr r => r
termination_by (⟨s, h⟩ : { s : State // Acc Follow s })
decreasing_by exact hs

theorem run_of_reaches {s t : State} {r : EStateM.Result Error Store Context}
    (h : Reaches s t) (ht : t.step = .inr r) (hs : Acc Follow s) : run s hs = r := by
  induction h with
  | here =>
    rw [run]
    split
    · rename_i h
      rw [ht] at h
      cases h
    · rename_i h
      rw [ht] at h
      cases h
      rfl
  | step hst _ ih =>
    rw [run]
    split
    · rename_i h
      rw [hst] at h
      cases h
      exact ih ht _
    · rename_i h
      rw [hst] at h
      cases h

end Machine

/-- Evaluates an expression that is in the store. -/
def eval (e : Value) (env : ScopeId) : Run Context := fun st =>
  Machine.run ⟨.form e env, callLimit - 1, [], st⟩ (Machine.halts e env _ st)

theorem eval_eq_evalWithin (e : Value) (env : ScopeId) : eval e env = evalWithin callLimit e env :=
  funext fun st =>
    Machine.run_of_reaches (Machine.reaches_evalForm _ e env [] st)
      (Machine.step_settle_nil _ _) _

end SlotLisp
