import SlotLisp.Proofs.Evaluation.ErrorContext
import SlotLisp.Proofs.Value.Parameters

/-!
# Forms of the wrong shape

`IllShaped` lists the combinations that are refused for what they look like, whatever the names in
them are bound to. The checks of the shape are spread over the special forms, but all of them come
first: the machine goes from such a form to the failure in one transition
(`refusesWith_of_illShaped`).
-/

namespace SlotLisp

/-! ## Ill-shaped forms -/

/-- Whether a binding of a `let` is a list of a name and an expression. -/
def IsBinding (binding : Value) : Prop :=
  ∃ name init, binding.toList? = some [.symbol name, init]

/-- Operands that a special form refuses, and the kind of error that says so. -/
inductive BadOperands : SpecialForm → List Value → ErrorKind → Prop
  | count {form : SpecialForm} {es : List Value} (hcount : ¬ form.arity.Accepts es.length) :
      BadOperands form es .specialForm
  | nameless {form : SpecialForm} (hform : form ∈ [.define, .assign, .defun]) {first : Value}
      (hfirst : ∀ name, first ≠ .symbol name) (others : List Value) :
      BadOperands form (first :: others) .specialForm
  | lambdaParameters {params : Value} (hparams : ¬ HasParameters params) (body : Value) :
      BadOperands .lambda [params, body] .specialForm
  | defunParameters {params : Value} (hparams : ¬ HasParameters params) (name body : Value) :
      BadOperands .defun [name, params, body] .specialForm
  | letWithoutBindings : BadOperands .letIn [] .bindingsFormat
  | letBodies (bindings : Value) {bodies : List Value} (hbodies : bodies.length ≠ 1) :
      BadOperands .letIn (bindings :: bodies) .letBodyFormat
  | letBinding {bindings binding : Value} (hmem : binding ∈ bindings.elements)
      (hbinding : ¬ IsBinding binding) (body : Value) :
      BadOperands .letIn [bindings, body] .bindingsFormat
  | letBindings {bindings : Value} (himproper : bindings.isProper = false) (body : Value) :
      BadOperands .letIn [bindings, body] .bindingsFormat

/-- A wrong number of operands is reported as such. -/
theorem BadOperands.kind_eq {form : SpecialForm} {es : List Value} {kind : ErrorKind}
    (h : BadOperands form es kind) (hcount : ¬ form.arity.Accepts es.length) :
    kind = .specialForm := by
  cases h with
  | count | nameless | lambdaParameters | defunParameters => rfl
  | _ => exact absurd trivial hcount

/-- A combination that is refused for its own shape, and the kind of error that says so. -/
inductive IllShaped : Value → ErrorKind → Prop
  | operandsNotList (form : SpecialForm) (mark : Option Nat) {operands : Value}
      (himproper : operands.isProper = false) :
      IllShaped (.pair mark (.symbol form.name) operands) .specialForm
  | operands {form : SpecialForm} (mark : Option Nat) {operands : Value} {es : List Value}
      {kind : ErrorKind} (hlist : operands.toList? = some es) (hbad : BadOperands form es kind) :
      IllShaped (.pair mark (.symbol form.name) operands) kind
  | argumentsNotList {head : Value} (hhead : ∀ form : SpecialForm, head ≠ .symbol form.name)
      (mark : Option Nat) {operands : Value} (himproper : operands.isProper = false) :
      IllShaped (.pair mark head operands) .functionCall

/-- Whether the problem is one that the checks of the shape report. Their kinds tell, but for a
function call, which can be invalid in other ways. -/
def Problem.isShape (p : Problem) : Bool :=
  match p.kind with
  | .specialForm | .bindingsFormat | .letBodyFormat => true
  | .functionCall => (p matches .argumentsNotList _)
  | _ => false

/-- Whether the shape is a matter of the number of operands alone. -/
def Shape.isCount : Shape → Bool
  | .oneDatum | .parametersAndBody | .conditionAndBranches => true
  | _ => false

/-- Whether the problem is what a form reports in its last branch, for operands of another number
than it takes. -/
def Problem.isFallback : Problem → Bool
  | .malformed _ shape _ => shape.isCount
  | _ => false

theorem recognised_iff {head : Value} {form : SpecialForm} :
    head.symbol?.bind SpecialForm.named? = some form ↔ head = .symbol form.name := by
  constructor
  · intro h
    cases head with
    | symbol name => exact congrArg Value.symbol (SpecialForm.name_of_named? h).symm
    | _ => cases h
  · rintro rfl
    exact SpecialForm.named?_name form

/-! ## The checks -/

section Checks

variable {form : SpecialForm} {whole operands : Value} {es : List Value}

theorem checkOperands_of_improper (h : operands.isProper = false) :
    checkOperands form whole operands = Outcome.fail (.operandsNotList form whole.text) := by
  rw [checkOperands, Value.length?_eq, Value.toList?_of_improper h]
  rfl

theorem checkOperands_of_count (hlist : operands.toList? = some es)
    (hcount : ¬ form.arity.Accepts es.length) :
    checkOperands form whole operands =
      Outcome.fail (.operandCount form es.length whole.text) := by
  rw [checkOperands, Value.length?_eq, hlist]
  rw [← Arity.violated?_eq_none_iff] at hcount
  obtain ⟨bound, hbound⟩ := Option.ne_none_iff_exists'.1 hcount
  simp only [Option.map_some, hbound]

theorem checkOperands_of_accepts (hlist : operands.toList? = some es)
    (haccepts : form.arity.Accepts es.length) : checkOperands form whole operands = .ok () := by
  rw [checkOperands, Value.length?_eq, hlist]
  simp only [Option.map_some, Arity.violated?_eq_none_iff.2 haccepts]

theorem checkParameters_error {operands params : Value} {seen : List String} {e : Error}
    (h : checkParameters operands seen params = .error e) :
    ∃ shape text, shape.isCount = false ∧ e = ⟨.malformed .lambda shape text, none⟩ := by
  fun_induction checkParameters operands seen params with
  | case1 => exact ⟨_, _, rfl, (Except.error.inj h).symm⟩
  | case2 _ _ _ _ _ ih => exact ih h
  | case3 => cases h
  | case4 => exact ⟨_, _, rfl, (Except.error.inj h).symm⟩
  | case5 => cases h
  | case6 => exact ⟨_, _, rfl, (Except.error.inj h).symm⟩

/-- What is no parameter list is reported, as operands of a `lambda`. -/
theorem checkParameters_of_not (operands : Value) {params : Value} (h : ¬ HasParameters params) :
    ∃ shape text, shape.isCount = false ∧
      checkParameters operands [] params = Outcome.fail (.malformed .lambda shape text) := by
  cases hcheck : checkParameters operands [] params with
  | ok =>
    obtain ⟨names, rest?, hparams, -⟩ := checkParameters_eq_ok_iff.1 hcheck
    exact absurd ⟨names, rest?, hparams⟩ h
  | error e =>
    obtain ⟨shape, text, hshape, rfl⟩ := checkParameters_error hcheck
    exact ⟨shape, text, hshape, rfl⟩

theorem isBinding_of_letDefinitions {bindings definitions : List Value}
    (h : letDefinitions bindings = .ok definitions) : ∀ binding ∈ bindings, IsBinding binding := by
  fun_induction letDefinitions bindings generalizing definitions with
  | case1 => exact List.forall_mem_nil _
  | case2 mark name mark' init rest ih =>
    cases hrest : letDefinitions rest with
    | error e =>
      rw [hrest] at h
      cases h
    | ok more =>
      refine List.forall_mem_cons.2 ⟨⟨name, init, ?_⟩, ih hrest⟩
      exact Value.toList?_eq_two_iff.2 ⟨mark, mark', rfl⟩
  | case3 => cases h

theorem letDefinitions_error {bindings : List Value} {e : Error}
    (h : letDefinitions bindings = .error e) :
    ∃ binding ∈ bindings, ¬ IsBinding binding ∧ e = ⟨.badBinding binding.text, none⟩ := by
  fun_induction letDefinitions bindings with
  | case1 => cases h
  | case2 mark name mark' init rest ih =>
    cases hrest : letDefinitions rest with
    | error e' =>
      rw [hrest] at h
      obtain rfl := Except.error.inj h
      obtain ⟨binding, hmem, hbinding⟩ := ih hrest
      exact ⟨binding, List.mem_cons_of_mem _ hmem, hbinding⟩
    | ok more =>
      rw [hrest] at h
      cases h
  | case3 binding rest hne =>
    refine ⟨binding, List.mem_cons_self, ?_, (Except.error.inj h).symm⟩
    rintro ⟨name, init, hlist⟩
    obtain ⟨mark, mark', rfl⟩ := Value.toList?_eq_two_iff.1 hlist
    exact hne mark name mark' init rfl

/-- The problem is one of shape and of this kind. -/
def Problem.ShapeOf (p : Problem) (kind : ErrorKind) : Prop := p.isShape = true ∧ p.kind = kind

theorem Problem.isFallback_of_kind {p : Problem} (h : p.kind ≠ .specialForm) :
    p.isFallback = false := by
  cases p with
  | malformed => exact absurd rfl h
  | _ => rfl

/-- Such an error records no combination. -/
theorem Problem.ShapeOf.within_eq {p : Problem} {kind : ErrorKind} (h : p.ShapeOf kind)
    (form : Value) : Error.within ⟨p, none⟩ form = ⟨p, none⟩ := by
  refine Error.within_of_kind ?_ form
  obtain ⟨hshape, -⟩ := h
  unfold isShape at hshape
  show p.kind ∈ _
  cases hkind : p.kind <;> simp [hkind] at hshape ⊢

theorem letBlock_of_badBindings {bindings body : Value}
    (hlist : operands.elements = [bindings, body])
    (hbad : (∃ binding ∈ bindings.elements, ¬ IsBinding binding) ∨ bindings.isProper = false) :
    ∃ problem : Problem, problem.ShapeOf .bindingsFormat ∧
      letBlock operands = Outcome.fail problem := by
  unfold letBlock
  simp only [hlist]
  cases hdefinitions : letDefinitions bindings.elements with
  | error e =>
    obtain ⟨binding, -, -, rfl⟩ := letDefinitions_error hdefinitions
    exact ⟨.badBinding binding.text, ⟨rfl, rfl⟩, rfl⟩
  | ok definitions =>
    have hproper : bindings.isProper = false := by
      refine hbad.resolve_left ?_
      rintro ⟨binding, hmem, hbinding⟩
      exact hbinding (isBinding_of_letDefinitions hdefinitions binding hmem)
    refine ⟨.bindingsNotList bindings.text, ⟨rfl, rfl⟩, ?_⟩
    rw [hproper]
    rfl

theorem letBlock_of_bad {kind : ErrorKind} (hlist : operands.elements = es)
    (hbad : BadOperands .letIn es kind) :
    ∃ problem : Problem, problem.ShapeOf kind ∧ letBlock operands = Outcome.fail problem := by
  cases hbad with
  | count hcount => exact absurd trivial hcount
  | nameless hform => simp at hform
  | letWithoutBindings =>
    refine ⟨.letWithoutBindings, ⟨rfl, rfl⟩, ?_⟩
    rw [letBlock, hlist]
  | @letBodies bindings bodies hbodies =>
    refine ⟨.letBodyCount bodies.length, ⟨rfl, rfl⟩, ?_⟩
    rw [letBlock, hlist]
    match bodies, hbodies with
    | [], _ => rfl
    | [body], hbodies => exact absurd rfl hbodies
    | _ :: _ :: _, _ => rfl
  | letBinding hmem hbinding => exact letBlock_of_badBindings hlist (.inl ⟨_, hmem, hbinding⟩)
  | letBindings himproper => exact letBlock_of_badBindings hlist (.inr himproper)

/-- A `let` whose operands are as they have to be is rewritten. -/
theorem letBlock_of_good (hlist : operands.elements = es)
    (hgood : ∀ kind, ¬ BadOperands .letIn es kind) : ∃ block, letBlock operands = .ok block := by
  unfold letBlock
  rw [hlist]
  match es, hgood with
  | [], hgood => exact absurd .letWithoutBindings (hgood _)
  | [bindings], hgood => exact absurd (.letBodies bindings (by simp)) (hgood _)
  | bindings :: body :: body' :: bodies, hgood =>
    exact absurd (.letBodies bindings (by simp)) (hgood _)
  | [bindings, body], hgood =>
    cases hdefinitions : letDefinitions bindings.elements with
    | error e =>
      obtain ⟨binding, hmem, hbinding, -⟩ := letDefinitions_error hdefinitions
      exact absurd (.letBinding hmem hbinding body) (hgood _)
    | ok definitions =>
      cases hproper : bindings.isProper with
      | false => exact absurd (.letBindings hproper body) (hgood _)
      | true => exact ⟨_, by simp only [hdefinitions, hproper]; rfl⟩

end Checks

/-! ## Refusals -/

namespace Machine

variable {form : SpecialForm} {mark : Option Nat} {operands : Value} {es : List Value}
  {kind : ErrorKind} {problem : Problem}

theorem answer_of_error {act : Run Value} {st st' : Store} {e : Error} (h : act st = .error e st')
    (env : ScopeId) (room : Nat) (frames : List Frame) :
    answer act env room frames st = ⟨.failed e, room, frames, st'⟩ := by
  rw [answer, bind_of_error h]
  rfl

theorem lambdaForm_of_not {params : Value} (hparams : ¬ HasParameters params)
    (mark mark' : Option Nat) (body : Value) : ∃ shape text, shape.isCount = false ∧ ∀ env st,
      lambdaForm (.pair mark params (.pair mark' body .nil)) env st =
        .error ⟨.malformed .lambda shape text, none⟩ st := by
  obtain ⟨shape, text, hshape, hcheck⟩ :=
    checkParameters_of_not (.pair mark params (.pair mark' body .nil)) hparams
  refine ⟨shape, text, hshape, fun env st => ?_⟩
  rw [lambdaForm, hcheck]
  rfl

variable [Host]

/-- The machine goes from the expression to the failure in one transition. -/
def RefusesWith (e : Value) (problem : Problem) : Prop :=
  ∀ env room frames st, State.step ⟨.form e env, room, frames, st⟩ =
    .inl ⟨.failed ⟨problem, none⟩, room, .within e :: frames, st⟩

theorem combination_of_error {whole : Value} {e : Error}
    (hcheck : checkOperands form whole operands = .error e) (env : ScopeId) (room : Nat)
    (frames : List Frame) (st : Store) :
    combination whole (.symbol form.name) operands env room frames st =
      ⟨.failed e, room, frames, st⟩ := by
  simp only [combination, Value.symbol?, Option.bind_some, SpecialForm.named?_name, hcheck]

theorem combination_of_ok {whole : Value} (hcheck : checkOperands form whole operands = .ok ())
    (env : ScopeId) (room : Nat) (frames : List Frame) (st : Store) :
    combination whole (.symbol form.name) operands env room frames st =
      special form operands env room frames st := by
  simp only [combination, Value.symbol?, Option.bind_some, SpecialForm.named?_name, hcheck]

/-- The special form refuses the operands, whatever state the machine is in. -/
def Declines (form : SpecialForm) (operands : Value) (problem : Problem) : Prop :=
  ∀ env room frames st, special form operands env room frames st =
    ⟨.failed ⟨problem, none⟩, room, frames, st⟩

theorem declines_of_nameless (hform : form ∈ [.define, .assign, .defun]) {first rest : Value}
    (hfirst : ∀ name, first ≠ .symbol name) :
    ∃ shape, shape.isCount = false ∧ Declines form (.pair mark first rest)
      (.malformed form shape (Value.cons (.symbol form.name) (.pair mark first rest)).text) := by
  refine ⟨if form = .defun then .nameParametersAndBody else .symbolAndExpression,
    by split <;> rfl, fun env room frames st => ?_⟩
  simp only [List.mem_cons, List.not_mem_nil, or_false] at hform
  obtain rfl | rfl | rfl := hform <;>
    cases first with
    | symbol name => exact absurd rfl (hfirst name)
    | _ => rfl

theorem declines_of_params {params : Value} (hparams : ¬ HasParameters params)
    (mark' : Option Nat) (body : Value) :
    ∃ shape text, shape.isCount = false ∧
      Declines .lambda (.pair mark params (.pair mark' body .nil))
        (.malformed .lambda shape text) := by
  obtain ⟨shape, text, hshape, hlambda⟩ := lambdaForm_of_not hparams mark mark' body
  exact ⟨shape, text, hshape,
    fun env room frames st => answer_of_error (hlambda env st) env room frames⟩

/-- The `lambda` inside a `defun` is refused, in the definition that the `defun` stands for. -/
theorem declines_of_defun {name : String} {params : Value} (hparams : ¬ HasParameters params)
    (mark' mark'' : Option Nat) (body : Value) :
    ∃ shape text, shape.isCount = false ∧ Declines .defun
      (.pair mark (.symbol name) (.pair mark' params (.pair mark'' body .nil)))
      (.malformed .lambda shape text) := by
  obtain ⟨shape, text, hcount, hlambda⟩ := lambdaForm_of_not hparams none none body
  refine ⟨shape, text, hcount, fun env room frames st => answer_of_error ?_ env room frames⟩
  have hshape : (Problem.malformed .lambda shape text).ShapeOf .specialForm := ⟨rfl, rfl⟩
  have hinner := Run.within_of_error (Value.cons (.symbol SpecialForm.lambda.name)
    (.ofList [params, body])) (hlambda env st)
  rw [hshape.within_eq] at hinner
  refine bind_of_error ?_
  rw [← hshape.within_eq]
  exact Run.within_of_error _ (bind_of_error hinner)

/-- Operands of the right number that a special form refuses, and not in its last branch. -/
theorem declines_of_bad (hlist : operands.toList? = some es)
    (haccepts : form.arity.Accepts es.length) (hbad : BadOperands form es kind) :
    ∃ problem : Problem, problem.ShapeOf kind ∧ problem.isFallback = false ∧
      Declines form operands problem := by
  have hblock (hbad : BadOperands .letIn es kind) (hkind : kind ≠ .specialForm) :
      ∃ problem : Problem, problem.ShapeOf kind ∧ problem.isFallback = false ∧
        Declines .letIn operands problem := by
    obtain ⟨problem, hshape, hblock⟩ := letBlock_of_bad (Value.elements_of_toList? hlist) hbad
    refine ⟨problem, hshape, Problem.isFallback_of_kind (hshape.2 ▸ hkind),
      fun env room frames st => ?_⟩
    rw [special, block, hblock]
    rfl
  cases hbad with
  | count hcount => exact absurd haccepts hcount
  | nameless hform hfirst =>
    obtain ⟨mark, rest, rfl, -⟩ := Value.toList?_eq_cons_iff.1 hlist
    obtain ⟨shape, hcount, h⟩ := declines_of_nameless hform hfirst
    exact ⟨.malformed _ shape _, ⟨rfl, rfl⟩, hcount, h⟩
  | lambdaParameters hparams body =>
    obtain ⟨mark, mark', rfl⟩ := Value.toList?_eq_two_iff.1 hlist
    obtain ⟨shape, text, hcount, h⟩ := declines_of_params hparams mark' body
    exact ⟨.malformed _ shape _, ⟨rfl, rfl⟩, hcount, h⟩
  | defunParameters hparams name body =>
    obtain ⟨mark, rest, rfl, hrest⟩ := Value.toList?_eq_cons_iff.1 hlist
    obtain ⟨mark', mark'', rfl⟩ := Value.toList?_eq_two_iff.1 hrest
    by_cases hname : ∃ name', name = .symbol name'
    · obtain ⟨name', rfl⟩ := hname
      obtain ⟨shape, text, hcount, h⟩ := declines_of_defun hparams mark' mark'' body
      exact ⟨.malformed _ shape _, ⟨rfl, rfl⟩, hcount, h⟩
    · obtain ⟨shape, hcount, h⟩ := declines_of_nameless
        (show .defun ∈ [SpecialForm.define, .assign, .defun] by simp) (not_exists.1 hname)
      exact ⟨.malformed _ shape _, ⟨rfl, rfl⟩, hcount, h⟩
  | letWithoutBindings => exact hblock .letWithoutBindings (by decide)
  | letBodies bindings hbodies => exact hblock (.letBodies bindings hbodies) (by decide)
  | letBinding hmem hbinding body => exact hblock (.letBinding hmem hbinding body) (by decide)
  | letBindings himproper body => exact hblock (.letBindings himproper body) (by decide)

/-- An ill-shaped form is refused at once, wherever it is evaluated. It does not come to the last
branch of a special form, because the number of its operands is checked before. -/
theorem exists_refusal {e : Value} (h : IllShaped e kind) :
    ∃ problem : Problem, problem.ShapeOf kind ∧ problem.isFallback = false ∧
      RefusesWith e problem := by
  cases h with
  | @operandsNotList form mark operands himproper =>
    refine ⟨.operandsNotList form (Value.pair mark (.symbol form.name) operands).text, ⟨rfl, rfl⟩,
      rfl, fun env room frames st => ?_⟩
    exact congrArg Sum.inl (combination_of_error (checkOperands_of_improper himproper) _ _ _ _)
  | @argumentsNotList head hhead mark operands himproper =>
    refine ⟨.argumentsNotList (Value.pair mark head operands).text, ⟨rfl, rfl⟩, rfl,
      fun env room frames st => congrArg Sum.inl ?_⟩
    have hordinary : head.symbol?.bind SpecialForm.named? = none :=
      Option.eq_none_iff_forall_ne_some.2 fun form h => hhead form (recognised_iff.1 h)
    simp [combination, hordinary, himproper]
  | @operands form mark operands es _ hlist hbad =>
    by_cases haccepts : form.arity.Accepts es.length
    · obtain ⟨problem, hshape, hfallback, hdeclines⟩ := declines_of_bad hlist haccepts hbad
      refine ⟨problem, hshape, hfallback, fun env room frames st => congrArg Sum.inl ?_⟩
      rw [combination_of_ok (checkOperands_of_accepts hlist haccepts), hdeclines]
    · obtain rfl := hbad.kind_eq haccepts
      refine ⟨.operandCount form es.length (Value.pair mark (.symbol form.name) operands).text,
        ⟨rfl, rfl⟩, rfl, fun env room frames st => congrArg Sum.inl ?_⟩
      exact combination_of_error (checkOperands_of_count hlist haccepts) _ _ _ _

theorem refusesWith_of_illShaped {e : Value} (h : IllShaped e kind) :
    ∃ problem : Problem, problem.ShapeOf kind ∧ RefusesWith e problem := by
  obtain ⟨problem, hshape, -, hrefuses⟩ := exists_refusal h
  exact ⟨problem, hshape, hrefuses⟩

end Machine

end SlotLisp
