import SlotLisp.Eval

/-!
# The block of a `let`

`letBlock` makes a `begin` of one definition for each binding and of the body, and it makes nothing
else up: what holds of every definition of a name by an expression of the bindings, and of the body,
holds of all its parts.
-/

namespace SlotLisp

/-- A definition, as the rewriting of a `let` or of a `defun` writes it down. -/
def definitionOf (name : String) (init : Value) : Value :=
  Value.ofList [.symbol SpecialForm.define.name, .symbol name, init]

theorem evalForm_begin [Host] (call : Caller) (es : List Value) (env : ScopeId) :
    evalForm call (.cons (.symbol SpecialForm.begin.name) (.ofList es)) env =
      Run.within (.cons (.symbol SpecialForm.begin.name) (.ofList es))
        (evalSequence call (.ofList es) ⟨.nil, env⟩) := by
  have hcheck (whole : Value) : checkOperands .begin whole (.ofList es) = .ok () := by
    rw [checkOperands, Value.length?_eq, Value.toList?_ofList]
    rfl
  rw [evalForm]
  simp only [Value.symbol?, Option.bind_some, SpecialForm.named?_name, hcheck, Run.ofOutcome,
    pure_bind]

theorem evalSequence_singleton [Host] (call : Caller) (e : Value) (context : Context) :
    evalSequence call (.ofList [e]) context = evalForm call e context.env := by
  simp only [Value.ofList, Value.ofListTail_cons, Value.ofListTail_nil, evalSequence, bind_pure]

theorem forall_letDefinitions {P Q : Value → Prop} {bindings definitions : List Value}
    (h : letDefinitions bindings = .ok definitions) (hbindings : ∀ b ∈ bindings, P b)
    (hdefinition : ∀ mark mark' name init,
      P (.pair mark (.symbol name) (.pair mark' init .nil)) → Q (definitionOf name init)) :
    ∀ e ∈ definitions, Q e := by
  fun_induction letDefinitions bindings generalizing definitions with
  | case1 =>
    obtain rfl := Except.ok.inj h
    simp
  | case2 mark name mark' init rest ih =>
    cases hrest : letDefinitions rest with
    | error e => simp [hrest, Bind.bind, Except.bind] at h
    | ok more =>
      simp only [hrest, Bind.bind, Except.bind, pure, Except.pure] at h
      obtain rfl := Except.ok.inj h
      rw [List.forall_mem_cons] at hbindings ⊢
      exact ⟨hdefinition mark mark' name init hbindings.1, ih hrest hbindings.2⟩
  | case3 => cases h

theorem letBlock_eq_ok {operands block : Value} (h : letBlock operands = .ok block) :
    ∃ bindings body definitions, operands.elements = [bindings, body] ∧
      letDefinitions bindings.elements = .ok definitions ∧
      block = .cons (.symbol SpecialForm.begin.name) (.ofList (definitions ++ [body])) := by
  unfold letBlock at h
  split at h
  · cases h
  · rename_i bindings body hlist
    cases hdefinitions : letDefinitions bindings.elements with
    | error e => simp [hdefinitions, Bind.bind, Except.bind] at h
    | ok definitions =>
      simp only [hdefinitions, Bind.bind, Except.bind] at h
      split at h
      · exact ⟨bindings, body, definitions, hlist, hdefinitions, (Except.ok.inj h).symm⟩
      · cases h
  · cases h

/-- A block is a `begin` of definitions and of the body. -/
theorem forall_letBlock {P Q : Value → Prop} {operands block : Value}
    (h : letBlock operands = .ok block) (hoperands : ∀ e ∈ operands.elements, P e)
    (helements : ∀ e, P e → ∀ b ∈ e.elements, P b)
    (hdefinition : ∀ mark mark' name init,
      P (.pair mark (.symbol name) (.pair mark' init .nil)) → Q (definitionOf name init))
    (hbody : ∀ e, P e → Q e) :
    ∃ es, block = .cons (.symbol SpecialForm.begin.name) (.ofList es) ∧ ∀ e ∈ es, Q e := by
  obtain ⟨bindings, body, definitions, hlist, hdefinitions, rfl⟩ := letBlock_eq_ok h
  rw [hlist, List.forall_mem_cons, List.forall_mem_singleton] at hoperands
  refine ⟨_, rfl, fun e he => ?_⟩
  rcases List.mem_append.1 he with he | he
  · exact forall_letDefinitions hdefinitions (helements bindings hoperands.1) hdefinition e he
  · exact List.mem_singleton.1 he ▸ hbody body hoperands.2

end SlotLisp
