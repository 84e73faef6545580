import SlotLisp.Proofs.Evaluation.Recording
import SlotLisp.Machine.Execution

/-!
# The combination that an error names

Every combination names itself in the errors that leave it, but only the first to do so is kept.
This is the innermost one that was being evaluated when the error was raised, as
`recordWithin` has it (`errors_name_the_innermost_combination`).
-/

namespace SlotLisp

/-! ## Naming a combination -/

namespace Error

theorem occursIn_iff {pattern l : List Char} : occursIn pattern l = true ↔ pattern <:+: l := by
  induction l with
  | nil => simp [occursIn]
  | cons c l ih =>
    rw [occursIn, Bool.or_eq_true, List.isPrefixOf_iff_prefix, ih, List.infix_cons_iff]

/-- A text that the mark cannot begin in may be left out in front. -/
theorem contextMark_infix_append {xs l : List Char} (h : '\n' ∉ xs) :
    contextMark <:+: xs ++ l ↔ contextMark <:+: l := by
  induction xs with
  | nil => rfl
  | cons c xs ih =>
    rw [List.mem_cons, not_or] at h
    have hstart : ¬ contextMark <+: c :: (xs ++ l) := by
      intro hmark
      have hmark' : '\n' :: contextMark.tail <+: c :: (xs ++ l) := hmark
      exact h.1 (List.cons_prefix_cons.1 hmark').1
    rw [List.cons_append, List.infix_cons_iff, ih h.2, or_iff_right hstart]

theorem newline_not_mem_heading (kind : ErrorKind) : '\n' ∉ kind.heading.toList := by
  cases kind <;> decide

theorem within_eq_self {e : Error} (h : e.awaitsContext = false) (form : Value) :
    e.within form = e := by
  rw [within, h]
  rfl

theorem awaitsContext_within (e : Error) (form : Value) :
    (e.within form).awaitsContext = false := by
  unfold within
  split
  · rfl
  · rename_i h
    exact Bool.eq_false_iff.2 h

/-- Only the first combination is kept. -/
theorem within_within (e : Error) (form form' : Value) :
    (e.within form).within form' = e.within form :=
  within_eq_self (awaitsContext_within e form) form'

theorem foldl_within (e : Error) (form : Value) (forms : List Value) :
    forms.foldl within (e.within form) = e.within form := by
  induction forms with
  | nil => rfl
  | cons form' forms ih => rw [List.foldl_cons, within_within, ih]

/-- An error of these kinds names no combination. -/
theorem within_of_kind {e : Error} (h : e.kind ∈ [ErrorKind.reading, .unboundVariable,
    .bindingsFormat, .letBodyFormat, .functionCall, .specialForm]) (form : Value) :
    e.within form = e := by
  refine within_eq_self ?_ form
  rw [awaitsContext]
  generalize e.kind = kind at h
  cases kind <;> simp at h ⊢

/-- An arity error keeps the first combination beside its message. -/
theorem within_of_arity {e : Error} (h : e.kind = .arity) (form : Value) :
    e.within form = { e with context? := some (e.context?.getD form.text) } := by
  obtain ⟨problem, context?⟩ := e
  rw [within, awaitsContext, h]
  cases context? <;> rfl

section Message

variable {e : Error} (hkind : e.kind = .typeMismatch ∨ e.kind = .evaluation)
include hkind

theorem message_of_none (h : e.context? = none) : e.message = e.kind.heading ++ e.problem.text := by
  obtain ⟨problem, context?⟩ := e
  subst h
  cases problem <;> rfl

theorem message_of_some {form : String} (h : e.context? = some form) :
    e.message = e.kind.heading ++ e.problem.text ++ String.ofList contextMark ++
      "while evaluating " ++ form := by
  obtain ⟨problem, context?⟩ := e
  subst h
  cases problem with
  | arity expected got => simp [kind, Problem.kind] at hkind
  | _ => rfl

theorem occursIn_message : occursIn contextMark e.message.toList =
    (e.context?.isSome || occursIn contextMark e.problem.text.toList) := by
  rw [Bool.eq_iff_iff, Bool.or_eq_true, occursIn_iff, occursIn_iff]
  cases h : e.context? with
  | none =>
    rw [message_of_none hkind h, String.toList_append,
      contextMark_infix_append (newline_not_mem_heading e.kind)]
    simp
  | some form =>
    rw [message_of_some hkind h]
    simp only [String.toList_append, String.toList_ofList, List.append_assoc]
    rw [← List.append_assoc]
    simp only [Option.isSome_some, true_or, iff_true]
    exact ⟨_, _, List.append_assoc _ _ _⟩

/-- What naming a combination does to the message: it adds the mark and the combination, unless the
message shows the mark already. -/
theorem message_within (form : Value) :
    (e.within form).message = if occursIn contextMark e.message.toList then e.message
      else e.message ++ String.ofList contextMark ++ "while evaluating " ++ form.text := by
  have hawaits : e.awaitsContext = !occursIn contextMark e.message.toList := by
    rw [occursIn_message hkind, awaitsContext]
    obtain h | h := hkind <;> cases e.context? <;> simp [h]
  cases hmark : occursIn contextMark e.message.toList with
  | true => rw [within_eq_self (by rw [hawaits, hmark]; rfl), if_pos rfl]
  | false =>
    have hcontext : e.context? = none := by
      rw [occursIn_message hkind, Bool.or_eq_false_iff] at hmark
      exact Option.isNone_iff_eq_none.1 (Option.isSome_eq_false_iff.1 hmark.1)
    have hnamed : e.within form = { e with context? := some form.text } := by
      rw [within, hawaits, hmark]
      rfl
    rw [hnamed, if_neg Bool.false_ne_true, message_of_none hkind hcontext]
    exact message_of_some (e := { e with context? := some form.text }) hkind rfl

end Message

end Error

/-! ## Recordings and runs -/

/-- The error as it leaves the combination that it was raised in, if there is one. -/
def Error.inside (e : Error) (form? : Option Value) : Error := form?.elim e e.within

def Raised.named (r : Raised) : Error := r.error.inside r.form?

/-- What a recording comes to, with each error naming the combination that it was raised in. -/
def Raised.settle {α : Type} : EStateM.Result Raised Store α → EStateM.Result Error Store α
  | .ok a st => .ok a st
  | .error r st => .error r.named st

def Value.IsCombination (v : Value) : Prop := ∃ mark head operands, v = .pair mark head operands

/-- The recording has the same result as the run, or the error of the run is the recorded one as it
has left `form?`. It was raised there or in a combination further in. -/
inductive SameRecorded {α : Type} (form? : Option Value) :
    EStateM.Result Raised Store α → EStateM.Result Error Store α → Prop
  | ok (a : α) (st : Store) : SameRecorded form? (.ok a st) (.ok a st)
  | error {r : Raised} {e : Error} (st : Store) (named : r.named = e.inside form?)
      (place : r.form? = form? ∨ ∃ form, r.form? = some form ∧ form.IsCombination) :
      SameRecorded form? (.error r st) (.error e st)

section

variable {α : Type} {form? : Option Value} {r : EStateM.Result Raised Store α}
  {r' : EStateM.Result Error Store α}

theorem SameRecorded.eq_settle (h : SameRecorded none r r') : r' = Raised.settle r := by
  cases h with
  | ok a st => rfl
  | error st named _ => exact congrArg (EStateM.Result.error · st) named.symm

theorem SameRecorded.place (h : SameRecorded form? r r') {raised : Raised} {st : Store}
    (hr : r = .error raised st) :
    raised.form? = form? ∨ ∃ form, raised.form? = some form ∧ form.IsCombination := by
  cases h with
  | ok a st => cases hr
  | error st _ hplace =>
    cases hr
    exact hplace

end

/-- Wherever it takes place, the recording comes to what the run comes to. -/
def Recording.Records {α : Type} (act : Recording α) (act' : Run α) : Prop :=
  ∀ form? st, SameRecorded form? (act form? st) (act' st)

namespace Recording

variable {α β : Type} {act : Recording α} {act' : Run α}

theorem bind_of_ok {next : α → Recording β} {form? : Option Value} {st st' : Store} {a : α}
    (h : act form? st = .ok a st') : (act >>= next) form? st = next a form? st' := by
  show EStateM.bind (act form?) (fun a => next a form?) st = _
  rw [EStateM.bind, h]

theorem bind_of_error {next : α → Recording β} {form? : Option Value} {st st' : Store} {r : Raised}
    (h : act form? st = .error r st') : (act >>= next) form? st = .error r st' := by
  show EStateM.bind (act form?) (fun a => next a form?) st = _
  rw [EStateM.bind, h]

theorem records_pure (a : α) : (pure a : Recording α).Records (pure a) := fun _ st => .ok a st

theorem records_raising (act : Run α) : (raising act).Records act := by
  intro form? st
  unfold raising
  cases act st with
  | ok a st' => exact .ok a st'
  | error e st' => exact .error st' rfl (.inl rfl)

theorem Records.bind (h : act.Records act') {next : α → Recording β} {next' : α → Run β}
    (hnext : ∀ a, (next a).Records (next' a)) : (act >>= next).Records (act' >>= next') := by
  intro form? st
  have hend := h form? st
  generalize hact : act form? st = r, hact' : act' st = r' at hend
  cases hend with
  | ok a st' =>
    rw [bind_of_ok hact, Machine.bind_of_ok hact']
    exact hnext a form? st'
  | error st' named place =>
    rw [bind_of_error hact, Machine.bind_of_error hact']
    exact .error st' named place

/-- The combination names itself first, and none further out is named. -/
theorem Records.during (h : act.Records act') {form : Value} (hform : form.IsCombination) :
    (during form act).Records (Run.within form act') := by
  intro form? st
  have hend := h (some form) st
  generalize hact : act (some form) st = r, hact' : act' st = r' at hend
  have hduring : Recording.during form act form? st = act (some form) st := rfl
  cases hend with
  | ok a st' =>
    rw [hduring, hact, Run.within_of_ok form hact']
    exact .ok a st'
  | @error r e st' named place =>
    rw [hduring, hact, Run.within_of_error form hact']
    refine .error st' (named.trans ?_) ?_
    · cases form? with
      | none => rfl
      | some outer => exact (Error.within_within e form outer).symm
    · obtain hplace | hplace := place
      · exact .inr ⟨form, hplace, hform⟩
      · exact .inr hplace

end Recording

/-! ## The evaluator -/

open Recording

section

variable [Host]

/-- The recorder and the evaluator come to the same for the bodies of closures. -/
def RecordsCalls (record : Recorder) (call : Caller) : Prop :=
  ∀ body scope, (record body scope).Records (call body scope)

def RecordsForm (record : Recorder) (call : Caller) (e : Value) : Prop :=
  ∀ env, (recordForm record e env).Records (evalForm call e env)

section Forms

variable {record : Recorder} {call : Caller} {operands : Value}

theorem records_applyTo (hcall : RecordsCalls record call) (args : List Value) (callee : Value) :
    (recordCall record args callee).Records (applyTo call args callee) := by
  cases callee with
  | closure mark params body captured =>
    refine (records_raising _).bind fun scope => ?_
    exact (hcall body scope).bind fun context => records_pure context.value
  | _ =>
    simp only [recordCall, applyTo]
    exact records_raising _

omit [Host] in
theorem records_defunForm (operands : Value) (env : ScopeId) :
    (recordDefun operands env).Records (defunForm operands env) := by
  rw [recordDefun.eq_def]
  split
  · refine Records.during ?_ ⟨_, _, _, rfl⟩
    refine (Records.during (records_raising _) ⟨_, _, _, rfl⟩).bind fun v => ?_
    exact records_raising _
  · rename_i hshape
    rw [defunForm.eq_2 _ _ hshape]
    exact records_raising _

theorem records_letForm (hcall : RecordsCalls record call) (operands : Value) (env : ScopeId) :
    (recordLet record operands env).Records (letForm call operands env) := by
  refine (records_raising _).bind fun block => Records.during ?_ ⟨_, _, _, rfl⟩
  exact (records_raising _).bind fun mark => records_applyTo hcall [] _

theorem records_evalDefine (hforms : ∀ e ∈ operands.elements, RecordsForm record call e)
    (env : ScopeId) :
    (recordDefine record operands env).Records (evalDefine call operands env) := by
  rw [recordDefine.eq_def]
  split
  · rw [evalDefine]
    exact (records_raising _).bind fun slot => records_raising _
  · rename_i init hinit
    rw [evalDefine.eq_2 _ _ _ _ _ _ hinit]
    exact (hforms init (by simp) env).bind fun context => records_raising _
  · rename_i hname hinit
    rw [evalDefine.eq_3 _ _ _ hname hinit]
    exact records_raising _

theorem records_evalAssign (hforms : ∀ e ∈ operands.elements, RecordsForm record call e)
    (env : ScopeId) :
    (recordAssign record operands env).Records (evalAssign call operands env) := by
  rw [recordAssign.eq_def]
  split
  · rename_i e
    rw [evalAssign]
    exact (hforms e (by simp) env).bind fun context => records_raising _
  · rename_i hshape
    rw [evalAssign.eq_2 _ _ _ hshape]
    exact records_raising _

theorem records_evalSequence {es : Value}
    (hforms : ∀ e ∈ es.elements, RecordsForm record call e) (context : Context) :
    (recordSequence record es context).Records (evalSequence call es context) := by
  induction es generalizing context with
  | pair mark e rest _ ih =>
    rw [Value.elements_pair, List.forall_mem_cons] at hforms
    rw [recordSequence, evalSequence]
    exact (hforms.1 context.env).bind fun context' => ih hforms.2 context'
  | _ =>
    rw [recordSequence.eq_def, evalSequence.eq_def]
    exact records_pure context

theorem records_evalBranch (hforms : ∀ e ∈ operands.elements, RecordsForm record call e)
    (env : ScopeId) :
    (recordBranch record operands env).Records (evalBranch call operands env) := by
  rw [recordBranch.eq_def]
  split
  · rename_i condition _ consequent
    rw [evalBranch]
    refine (hforms condition (by simp) env).bind fun test => ?_
    split
    · exact hforms consequent (by simp) test.env
    · exact records_pure _
  · rename_i condition _ consequent _ alternative
    rw [evalBranch]
    refine (hforms condition (by simp) env).bind fun test => ?_
    split
    · exact hforms consequent (by simp) test.env
    · exact hforms alternative (by simp) test.env
  · rename_i hone htwo
    rw [evalBranch.eq_3 _ _ _ hone htwo]
    exact records_raising _

theorem records_evalArguments {es : Value}
    (hforms : ∀ e ∈ es.elements, RecordsForm record call e) (args : List Value) (env : ScopeId) :
    (recordArguments record es args env).Records (evalArguments call es args env) := by
  induction es generalizing args env with
  | pair mark e rest _ ih =>
    rw [Value.elements_pair, List.forall_mem_cons] at hforms
    rw [recordArguments, evalArguments]
    exact (hforms.1 env).bind fun context => ih hforms.2 (context.value :: args) context.env
  | _ =>
    rw [recordArguments.eq_def, evalArguments.eq_def]
    exact records_pure _

theorem records_combination (hcall : RecordsCalls record call) {mark : Option Nat}
    {head : Value} (hhead : RecordsForm record call head)
    (hforms : ∀ e ∈ operands.elements, RecordsForm record call e) :
    RecordsForm record call (.pair mark head operands) := by
  intro env
  rw [recordForm, evalForm]
  refine Records.during ?_ ⟨mark, head, operands, rfl⟩
  cases hform : head.symbol?.bind SpecialForm.named? with
  | some form =>
    refine (records_raising _).bind fun _ => ?_
    cases form with
    | quote => exact (records_raising _).bind fun v => records_pure _
    | lambda => exact (records_raising _).bind fun v => records_pure _
    | letIn => exact (records_letForm hcall operands env).bind fun v => records_pure _
    | defun => exact (records_defunForm operands env).bind fun _ => records_pure _
    | define => exact (records_evalDefine hforms env).bind fun _ => records_pure _
    | assign => exact (records_evalAssign hforms env).bind fun _ => records_pure _
    | begin => exact records_evalSequence hforms ⟨.nil, env⟩
    | branch => exact records_evalBranch hforms env
  | none =>
    simp only
    split
    · exact records_raising _
    · refine (hhead env).bind fun callee => ?_
      refine (records_evalArguments hforms [] callee.env).bind ?_
      rintro ⟨args, env'⟩
      exact (records_applyTo hcall args callee.value).bind fun v => records_pure _

theorem recordsForm (hcall : RecordsCalls record call) (e : Value) :
    RecordsForm record call e := by
  induction e using Value.form_induction with
  | combination mark head operands hhead hoperands =>
    exact records_combination hcall hhead hoperands
  | atom v hv =>
    intro env
    cases v with
    | pair mark a d => exact absurd rfl (hv mark a d)
    | symbol name =>
      rw [recordForm, evalForm]
      exact (records_raising _).bind fun v => records_pure _
    | _ =>
      rw [recordForm.eq_def, evalForm.eq_def]
      exact records_pure _

end Forms

theorem recordsCalls_evalWithin (n : Nat) : RecordsCalls (recordWithin n) (evalWithin n) := by
  induction n with
  | zero =>
    intro e env
    rw [recordWithin, evalWithin]
    exact records_raising _
  | succ n ih => exact fun e env => recordsForm ih e env

end

/-- Every error that evaluation returns is the error as it was raised, with the innermost
combination that was being evaluated then. The combinations further out leave it alone. Which
combination it names shows in its message, unless it is of a kind that names none. -/
theorem errors_name_the_innermost_combination [Host] :
    (∀ n e env st, evalWithin n e env st = Raised.settle (recordWithin n e env none st)) ∧
    (∀ e env st, eval e env st = Raised.settle (recordWithin callLimit e env none st)) ∧
    (∀ n e env st r st', recordWithin n e env none st = .error r st' →
      ∀ form, r.form? = some form → form.IsCombination) ∧
    (∀ (e : Error) (form : Value) (forms : List Value),
      forms.foldl Error.within (e.within form) = e.within form) ∧
    (∀ r : Raised, r.error.kind ∈ [ErrorKind.reading, .unboundVariable, .bindingsFormat,
      .letBodyFormat, .functionCall, .specialForm] → r.named = r.error) ∧
    (∀ (e : Error) (form : Value), e.kind = .arity →
      e.within form = { e with context? := some (e.context?.getD form.text) }) ∧
    (∀ (e : Error) (form : Value), e.kind = .typeMismatch ∨ e.kind = .evaluation →
      (e.within form).message = if Error.occursIn Error.contextMark e.message.toList then e.message
        else e.message ++ String.ofList Error.contextMark ++ "while evaluating " ++ form.text) := by
  refine ⟨fun n e env st => (recordsCalls_evalWithin n e env none st).eq_settle,
    fun e env st => ?_, fun n e env st r st' hrun form hform => ?_, Error.foldl_within,
    fun r hkind => ?_, fun e form hkind => Error.within_of_arity hkind form,
    fun e form hkind => Error.message_within hkind form⟩
  · rw [eval_eq_evalWithin]
    exact (recordsCalls_evalWithin callLimit e env none st).eq_settle
  · obtain hnone | ⟨form', hform', hcombination⟩ :=
      (recordsCalls_evalWithin n e env none st).place hrun
    · rw [hform] at hnone
      cases hnone
    · obtain rfl := Option.some.inj (hform.symm.trans hform')
      exact hcombination
  · rw [Raised.named, Error.inside]
    cases r.form? with
    | none => rfl
    | some form => exact Error.within_of_kind hkind form

section

attribute [local instance] Host.empty

/-- `(begin (1 2))` -/
theorem error_inside_a_begin :
    let call := Value.ofList [.int 1, .int 2]
    let raised : Error := ⟨.notCallable "integer" "1", none⟩
    eval (Value.ofList [.symbol "begin", call]) 0 {} = .error (raised.within call) {} ∧
    (raised.within call).message =
      raised.message ++ String.ofList Error.contextMark ++ "while evaluating " ++ call.text ∧
    call.IsCombination := by
  intro call raised
  obtain ⟨-, heval, hcombination, -, -, -, hmessage⟩ := errors_name_the_innermost_combination
  have hrecord : recordWithin callLimit (Value.ofList [.symbol "begin", call]) 0 none {} =
      .error ⟨raised, some call⟩ {} := rfl
  refine ⟨by rw [heval, hrecord]; rfl, ?_, hcombination _ _ _ _ _ _ hrecord call rfl⟩
  rw [hmessage raised call (.inl rfl), if_neg]
  decide

end

end SlotLisp
