import SlotLisp.Machine.Execution
import SlotLisp.Proofs.Evaluation.Block
import SlotLisp.Proofs.Value.Parts

/-!
# Couplings of stores

A `Coupling` is a relation of stores in which evaluation goes the same way, together with the scopes
that code may run in and the names that it may use. Its laws are about the elementary changes of a
store and the functions of the host. From them evaluation ends alike from related stores, at any
depth and up to any error (`alikeCalls_evalWithin`).
-/

namespace SlotLisp

/-- Two runs end alike: with the same result or the same error, in related stores. -/
inductive EndAlike {α : Type} (Rel : Store → Store → Prop) (Q : α → Prop) :
    EStateM.Result Error Store α → EStateM.Result Error Store α → Prop
  | ok {a : α} {st st' : Store} : Rel st st' → Q a → EndAlike Rel Q (.ok a st) (.ok a st')
  | error {e : Error} {st st' : Store} : Rel st st' → EndAlike Rel Q (.error e st) (.error e st')

/-- From related stores the run ends alike, and a result satisfies `Q`. -/
def Alike {α : Type} (Rel : Store → Store → Prop) (act : Run α) (Q : α → Prop) : Prop :=
  ∀ st st', Rel st st' → EndAlike Rel Q (act st) (act st')

/-- Code whose names satisfy `S`. In a block that a `let` stands for, `begin` and `define` are
written at the head of combinations, whatever `S` says of them. -/
inductive Value.Code (S : String → Prop) : Value → Prop
  | plain {e : Value} : e.Symbols S → Code S e
  | define {name : String} {init : Value} : S name → init.Symbols S →
      Code S (definitionOf name init)
  | begin {es : List Value} : (∀ e ∈ es, Code S e) →
      Code S (.cons (.symbol SpecialForm.begin.name) (.ofList es))

/-- A closure of these parameters, this body and this captured scope may be called. -/
def Callable (Env : ScopeId → Prop) (S : String → Prop) (params body : Value) (scope : ScopeId) :
    Prop := params.Symbols S ∧ body.Code S ∧ Env scope

/-! ## Putting runs together -/

section Rules

variable {α β : Type} {Rel : Store → Store → Prop} {act : Run α} {Q : α → Prop} {R : β → Prop}

theorem EndAlike.mono {α : Type} {Rel Rel' : Store → Store → Prop} {Q Q' : α → Prop}
    {r r' : EStateM.Result Error Store α} (h : EndAlike Rel Q r r')
    (hrel : ∀ st st', Rel st st' → Rel' st st') (hq : ∀ a, Q a → Q' a) :
    EndAlike Rel' Q' r r' := by
  cases h with
  | ok hstores ha => exact .ok (hrel _ _ hstores) (hq _ ha)
  | error hstores => exact .error (hrel _ _ hstores)

theorem alike_pure {a : α} (hq : Q a) : Alike Rel (pure a) Q := fun _ _ hrel => .ok hrel hq

theorem alike_fail (p : Problem) : Alike Rel (Run.fail p) Q := fun _ _ hrel => .error hrel

theorem alike_ofOutcome {o : Outcome α} (hq : ∀ a, o = .ok a → Q a) :
    Alike Rel (Run.ofOutcome o) Q := by
  cases o with
  | ok a => exact alike_pure (hq a rfl)
  | error e => exact fun _ _ hrel => .error hrel

/-- Two runs that have ended alike go on with the same result, or neither goes on. -/
theorem Alike.bind {next : α → Run β} (hact : Alike Rel act Q)
    (hnext : ∀ a, Q a → Alike Rel (next a) R) : Alike Rel (act >>= next) R := by
  intro st st' hrel
  have hend := hact st st' hrel
  generalize h : act st = r, h' : act st' = r' at hend
  cases hend with
  | ok hrel' hq =>
    rw [Machine.bind_of_ok h, Machine.bind_of_ok h']
    exact hnext _ hq _ _ hrel'
  | error hrel' =>
    rw [Machine.bind_of_error h, Machine.bind_of_error h']
    exact .error hrel'

theorem Alike.map (hact : Alike Rel act Q) {f : α → β} (hf : ∀ a, Q a → R (f a)) :
    Alike Rel (do return f (← act)) R :=
  hact.bind fun a hq => alike_pure (hf a hq)

/-- The error was the same, so it names the same combination. -/
theorem Alike.within (hact : Alike Rel act Q) (form : Value) :
    Alike Rel (Run.within form act) Q := by
  intro st st' hrel
  have hend := hact st st' hrel
  generalize h : act st = r, h' : act st' = r' at hend
  cases hend with
  | ok hrel' hq =>
    rw [Run.within_of_ok form h, Run.within_of_ok form h']
    exact .ok hrel' hq
  | error hrel' =>
    rw [Run.within_of_error form h, Run.within_of_error form h']
    exact .error hrel'

end Rules

/-! ## The laws of a coupling -/

variable [Host]

/-- A relation of stores, and the scopes and names for which the elementary runs end alike in them.
In related stores scopes and marks have the same numbers; slots may be numbered otherwise. -/
structure Coupling where
  Rel : Store → Store → Prop
  /-- Code may run in this scope. -/
  Env : ScopeId → Prop
  /-- Code may use this name. -/
  Name : String → Prop
  marks {st st' : Store} : Rel st st' → st'.marks = st.marks
  marked {st st' : Store} (marks : Nat) : Rel st st' → Rel { st with marks } { st' with marks }
  enter {scope : ScopeId} : Env scope → Alike Rel (Run.newScope (some scope)) Env
  lookup {env : ScopeId} {name : String} : Env env → Name name →
    Alike Rel (Run.lookup env name) (·.Closures (Callable Env Name))
  bind {env : ScopeId} {name : String} {v : Value} : Env env → Name name →
    v.Closures (Callable Env Name) → Alike Rel (Run.bind env name v) fun _ => True
  share {env : ScopeId} {name source : String} : Env env → Name name → Name source →
    Alike Rel (do Run.bindSlot env name (← Run.lookupSlot env source)) fun _ => True
  assign {env : ScopeId} {name : String} {v : Value} : Env env → Name name →
    v.Closures (Callable Env Name) → Alike Rel (Run.assign env name v) fun _ => True
  /-- What a function of the host does is the same in related stores. -/
  host {args : List Value} (key : String) : (∀ v ∈ args, v.Closures (Callable Env Name)) →
    Alike Rel (Host.call key args) (·.Closures (Callable Env Name))

namespace Coupling

variable {C : Coupling}

/-- The closures in a value may be called. -/
def Val (C : Coupling) (v : Value) : Prop := v.Closures (Callable C.Env C.Name)

/-- An expression as it is written in a program. -/
def Expr (C : Coupling) (e : Value) : Prop := e.Symbols C.Name ∧ C.Val e

/-- An expression, or a block that a `let` stands for. -/
def Body (C : Coupling) (e : Value) : Prop := e.Code C.Name ∧ C.Val e

def Good (C : Coupling) (context : Context) : Prop := C.Env context.env ∧ C.Val context.value

theorem Expr.car {mark : Option Nat} {a d : Value} (h : C.Expr (.pair mark a d)) : C.Expr a :=
  ⟨h.1.1, h.2.1⟩

theorem Expr.cdr {mark : Option Nat} {a d : Value} (h : C.Expr (.pair mark a d)) : C.Expr d :=
  ⟨h.1.2, h.2.2⟩

theorem Expr.elements {e : Value} (h : C.Expr e) : ∀ x ∈ e.elements, C.Expr x :=
  fun x hx => ⟨h.1.elements x hx, h.2.elements x hx⟩

theorem Expr.ofList {es : List Value} (h : ∀ e ∈ es, C.Expr e) : C.Expr (.ofList es) :=
  ⟨Value.symbols_ofList fun e he => (h e he).1, Value.closures_ofList fun e he => (h e he).2⟩

theorem Expr.body {e : Value} (h : C.Expr e) : C.Body e := ⟨.plain h.1, h.2⟩

/-! ## Calls -/

/-- Related stores have used as many marks, so the next one is the same. -/
theorem alike_newMark : Alike C.Rel Run.newMark fun _ => True := by
  intro st st' hrel
  rw [Run.newMark, Run.newMark, C.marks hrel]
  exact .ok (C.marked _ hrel) trivial

theorem alike_place {v : Value} (hv : C.Val v) : Alike C.Rel (Run.place v) C.Val := by
  intro st st' hrel
  rw [Run.place, Run.place, Store.place, Store.place, C.marks hrel]
  exact .ok (C.marked _ hrel) (st.closures_place hv)

theorem alike_native {f : Native} {args : List Value} (hargs : ∀ v ∈ args, C.Val v) :
    Alike C.Rel (f.call args) C.Val := by
  cases f with
  | builtin op =>
    exact (alike_ofOutcome fun v h => op.closures_run h hargs).bind fun v hv => alike_place hv
  | host name key => exact (C.host key hargs).bind fun v hv => alike_place hv

/-- The names of the parameters are bound, so they have to be names that code may use. -/
theorem alike_bindParameters {scope : ScopeId} {params : Value} {args : List Value}
    (henv : C.Env scope) (hparams : params.Symbols C.Name) (hargs : ∀ v ∈ args, C.Val v) :
    Alike C.Rel (bindParameters scope params args) fun _ => True := by
  induction params generalizing args with
  | pair mark p rest _ ih =>
    cases args with
    | nil =>
      rw [bindParameters_nil]
      exact alike_pure trivial
    | cons v vs =>
      rw [List.forall_mem_cons] at hargs
      cases p with
      | symbol name =>
        rw [bindParameters]
        exact (C.bind henv hparams.1 hargs.1).bind fun _ _ => ih hparams.2 hargs.2
      | _ =>
        rw [bindParameters.eq_def]
        exact alike_fail _
  | symbol name =>
    rw [bindParameters]
    exact (alike_place (Value.closures_ofList hargs)).bind fun v hv => C.bind henv hparams hv
  | _ =>
    rw [bindParameters.eq_def]
    exact alike_pure trivial

/-- The new scope has the same number on both sides. -/
theorem alike_enterClosure {params : Value} {captured : ScopeId} {args : List Value}
    (hcaptured : C.Env captured) (hparams : params.Symbols C.Name)
    (hargs : ∀ v ∈ args, C.Val v) : Alike C.Rel (enterClosure params captured args) C.Env := by
  unfold enterClosure
  simp only
  split
  · exact alike_fail _
  · refine (C.enter hcaptured).bind fun scope hscope => ?_
    exact (alike_bindParameters hscope hparams hargs).bind fun _ _ => alike_pure hscope

/-- From related stores the bodies of closures end alike. -/
def AlikeCalls (C : Coupling) (call : Caller) : Prop :=
  ∀ (body : Value) (scope : ScopeId), C.Env scope → C.Body body →
    Alike C.Rel (call body scope) C.Good

/-- A closure captured a scope that code may run in, and its body is code in the sense of the
coupling, also where a `let` made it. -/
theorem alike_applyTo {call : Caller} (hcall : C.AlikeCalls call) {args : List Value}
    {callee : Value} (hcallee : C.Val callee) (hargs : ∀ v ∈ args, C.Val v) :
    Alike C.Rel (applyTo call args callee) C.Val := by
  cases callee with
  | native f => exact alike_native hargs
  | closure mark params body captured =>
    obtain ⟨⟨hparams, hcode, hcaptured⟩, -, hbody⟩ := hcallee
    refine (alike_enterClosure hcaptured hparams hargs).bind fun scope hscope => ?_
    exact (hcall body scope hscope ⟨hcode, hbody⟩).map fun context hgood => hgood.2
  | _ => exact alike_fail _

/-! ## Special forms -/

/-- A closure is the same on both sides, its mark included. -/
theorem alike_lambdaForm {operands : Value} {env : ScopeId} (henv : C.Env env)
    (hop : C.Expr operands) : Alike C.Rel (lambdaForm operands env) C.Val := by
  unfold lambdaForm
  split
  · rename_i params _ body
    have hparams : C.Expr params := hop.car
    have hbody : C.Expr body := hop.cdr.car
    refine (alike_ofOutcome (Q := fun _ => True) fun _ _ => trivial).bind fun _ _ => ?_
    refine alike_newMark.bind fun mark _ => alike_pure ?_
    exact ⟨⟨hparams.1, .plain hbody.1, henv⟩, hparams.2, hbody.2⟩
  · exact alike_ofOutcome fun v h => by cases h

theorem alike_defunForm {operands : Value} {env : ScopeId} (henv : C.Env env)
    (hop : C.Expr operands) : Alike C.Rel (defunForm operands env) fun _ => True := by
  unfold defunForm
  split
  · refine Alike.within (Alike.bind (Alike.within (alike_lambdaForm henv ?_) _) ?_) _
    · exact Expr.ofList (by simp [hop.cdr.car, hop.cdr.cdr.car])
    · exact fun v hv => C.bind henv hop.1.1 hv
  · exact alike_ofOutcome fun _ _ => trivial

theorem body_definitionOf {name : String} {init : Value} (hname : C.Name name)
    (hinit : C.Expr init) : C.Body (definitionOf name init) :=
  ⟨.define hname hinit.1, trivial, trivial, hinit.2, trivial⟩

/-- The names of `begin` and `define` come into a block by the rewriting and not by the program. -/
theorem body_letBlock {operands block : Value} (h : letBlock operands = .ok block)
    (hop : C.Expr operands) : C.Body block := by
  obtain ⟨es, rfl, hes⟩ := forall_letBlock h hop.elements (fun _ he => he.elements)
    (fun _ _ _ _ hbinding => body_definitionOf hbinding.1.1 hbinding.cdr.car) fun _ he => he.body
  exact ⟨.begin fun e he => (hes e he).1, trivial, Value.closures_ofList fun e he => (hes e he).2⟩

/-- The function that a `let` stands for may be called, although its body is no plain code. -/
theorem alike_letForm {call : Caller} (hcall : C.AlikeCalls call) {operands : Value}
    {env : ScopeId} (henv : C.Env env) (hop : C.Expr operands) :
    Alike C.Rel (letForm call operands env) C.Val := by
  unfold letForm
  cases hblock : letBlock operands with
  | error e => exact fun _ _ hrel => .error hrel
  | ok block =>
    have hbody : C.Body block := body_letBlock hblock hop
    refine Alike.within (alike_newMark.bind fun mark _ => ?_) _
    exact alike_applyTo hcall ⟨⟨trivial, hbody.1, henv⟩, trivial, hbody.2⟩ (by simp)

/-! ## Evaluation -/

/-- From related stores the evaluation of `e` ends alike. -/
def AlikeForm (C : Coupling) (call : Caller) (e : Value) : Prop :=
  ∀ env : ScopeId, C.Env env → C.Expr e → Alike C.Rel (evalForm call e env) C.Good

section Forms

variable {call : Caller} {operands : Value} {env : ScopeId}

theorem alike_evalDefine (hforms : ∀ e ∈ operands.elements, C.AlikeForm call e)
    (henv : C.Env env) (hop : C.Expr operands) :
    Alike C.Rel (evalDefine call operands env) fun _ => True := by
  rw [evalDefine.eq_def]
  split
  · exact C.share henv hop.1.1 hop.1.2.1
  · rename_i init _
    exact (hforms init (by simp) env henv hop.cdr.car).bind fun context hgood =>
      C.bind henv hop.1.1 hgood.2
  · exact alike_ofOutcome fun _ _ => trivial

theorem alike_evalAssign (hforms : ∀ e ∈ operands.elements, C.AlikeForm call e)
    (henv : C.Env env) (hop : C.Expr operands) :
    Alike C.Rel (evalAssign call operands env) fun _ => True := by
  rw [evalAssign.eq_def]
  split
  · rename_i e
    exact (hforms e (by simp) env henv hop.cdr.car).bind fun context hgood =>
      C.assign henv hop.1.1 hgood.2
  · exact alike_ofOutcome fun _ _ => trivial

/-- The steps are code of any kind here, as those of a block are. -/
theorem alike_evalSequence {es : Value}
    (hforms : ∀ e ∈ es.elements, ∀ env, C.Env env → Alike C.Rel (evalForm call e env) C.Good)
    {context : Context} (hgood : C.Good context) :
    Alike C.Rel (evalSequence call es context) C.Good := by
  induction es generalizing context with
  | pair mark e rest _ ih =>
    rw [Value.elements_pair, List.forall_mem_cons] at hforms
    rw [evalSequence]
    exact (hforms.1 context.env hgood.1).bind fun context' hgood' => ih hforms.2 hgood'
  | _ =>
    rw [evalSequence.eq_def]
    exact alike_pure hgood

theorem alike_evalBranch (hforms : ∀ e ∈ operands.elements, C.AlikeForm call e)
    (henv : C.Env env) (hop : C.Expr operands) :
    Alike C.Rel (evalBranch call operands env) C.Good := by
  rw [evalBranch.eq_def]
  split
  · rename_i condition _ consequent
    refine (hforms condition (by simp) env henv hop.car).bind fun test htest => ?_
    split
    · exact hforms consequent (by simp) test.env htest.1 hop.cdr.car
    · exact alike_pure ⟨htest.1, trivial⟩
  · rename_i condition _ consequent _ alternative
    refine (hforms condition (by simp) env henv hop.car).bind fun test htest => ?_
    split
    · exact hforms consequent (by simp) test.env htest.1 hop.cdr.car
    · exact hforms alternative (by simp) test.env htest.1 hop.cdr.cdr.car
  · exact alike_ofOutcome fun v h => by cases h

/-- The operands are evaluated alike one after the other, so their values are the same. -/
theorem alike_evalArguments {es : Value} (hforms : ∀ e ∈ es.elements, C.AlikeForm call e)
    {args : List Value} (henv : C.Env env) (hes : C.Expr es) (hargs : ∀ v ∈ args, C.Val v) :
    Alike C.Rel (evalArguments call es args env) fun result =>
      (∀ v ∈ result.1, C.Val v) ∧ C.Env result.2 := by
  induction es generalizing args env with
  | pair mark e rest _ ih =>
    rw [Value.elements_pair, List.forall_mem_cons] at hforms
    rw [evalArguments]
    refine (hforms.1 env henv hes.car).bind fun context hgood => ?_
    apply ih hforms.2 hgood.1 hes.cdr
    rw [List.forall_mem_cons]
    exact ⟨hgood.2, hargs⟩
  | _ =>
    rw [evalArguments.eq_def]
    exact alike_pure ⟨fun v hv => hargs v (List.mem_reverse.1 hv), henv⟩

end Forms

theorem alike_combination {call : Caller} (hcall : C.AlikeCalls call) {mark : Option Nat}
    {head operands : Value} (hhead : C.AlikeForm call head)
    (hforms : ∀ e ∈ operands.elements, C.AlikeForm call e) :
    C.AlikeForm call (.pair mark head operands) := by
  intro env henv he
  rw [evalForm]
  refine Alike.within ?_ _
  have hop : C.Expr operands := he.cdr
  cases hform : head.symbol?.bind SpecialForm.named? with
  | some form =>
    refine (alike_ofOutcome (Q := fun _ => True) fun _ _ => trivial).bind fun _ _ => ?_
    cases form with
    | quote =>
      refine Alike.map (alike_ofOutcome (Q := C.Val) fun v h => ?_) fun v hv => ⟨henv, hv⟩
      unfold quoteForm at h
      split at h
      · obtain rfl := Except.ok.inj h
        exact hop.car.2
      · cases h
    | lambda => exact (alike_lambdaForm henv hop).map fun v hv => ⟨henv, hv⟩
    | letIn => exact (alike_letForm hcall henv hop).map fun v hv => ⟨henv, hv⟩
    | defun => exact (alike_defunForm henv hop).bind fun _ _ => alike_pure ⟨henv, trivial⟩
    | define => exact (alike_evalDefine hforms henv hop).bind fun _ _ => alike_pure ⟨henv, trivial⟩
    | assign => exact (alike_evalAssign hforms henv hop).bind fun _ _ => alike_pure ⟨henv, trivial⟩
    | begin =>
      exact alike_evalSequence (fun e h env henv => hforms e h env henv (hop.elements e h))
        ⟨henv, trivial⟩
    | branch => exact alike_evalBranch hforms henv hop
  | none =>
    simp only
    split
    · exact alike_fail _
    · refine (hhead env henv he.car).bind fun callee hcallee => ?_
      refine (alike_evalArguments hforms hcallee.1 hop (by simp)).bind ?_
      rintro ⟨args, env'⟩ ⟨hargs, henv'⟩
      exact (alike_applyTo hcall hcallee.2 hargs).map fun v hv => ⟨henv', hv⟩

/-- By induction on an expression as it is written in a program. -/
theorem alikeForm {call : Caller} (hcall : C.AlikeCalls call) (e : Value) :
    C.AlikeForm call e := by
  induction e using Value.form_induction with
  | combination mark head operands hhead hoperands =>
    exact alike_combination hcall hhead hoperands
  | atom v hv =>
    intro env henv he
    cases v with
    | pair mark a d => exact absurd rfl (hv mark a d)
    | symbol name =>
      rw [evalForm]
      exact (C.lookup henv he.1).map fun v hv => ⟨henv, hv⟩
    | _ =>
      rw [evalForm.eq_def]
      exact alike_pure ⟨henv, he.2⟩

/-- The heads that a block adds are special forms, so nothing looks up what they are bound to. -/
theorem alike_code {call : Caller} (hcall : C.AlikeCalls call) {e : Value}
    (hcode : e.Code C.Name) (he : C.Val e) {env : ScopeId} (henv : C.Env env) :
    Alike C.Rel (evalForm call e env) C.Good := by
  induction hcode generalizing env with
  | plain hsymbols => exact alikeForm hcall _ env henv ⟨hsymbols, he⟩
  | @define name init hname hinit =>
    have hop : C.Expr (.ofList [.symbol name, init]) := ⟨⟨hname, hinit, trivial⟩, he.2⟩
    simp only [definitionOf, Value.ofList, Value.ofListTail_cons, Value.cons] at hop ⊢
    rw [evalForm]
    refine Alike.within ?_ _
    simp only [Value.symbol?, Option.bind_some, SpecialForm.named?_name]
    refine (alike_ofOutcome (Q := fun _ => True) fun _ _ => trivial).bind fun _ _ => ?_
    exact (alike_evalDefine (fun e _ => alikeForm hcall e) henv hop).bind
      fun _ _ => alike_pure ⟨henv, trivial⟩
  | @begin es _ ih =>
    have hes : (Value.ofList es).elements = es := by
      rw [Value.ofList, Value.elements_ofListTail]
      exact List.append_nil es
    have hsteps : ∀ e ∈ es, C.Val e := hes ▸ he.2.elements
    rw [evalForm]
    refine Alike.within ?_ _
    simp only [Value.symbol?, Option.bind_some, SpecialForm.named?_name]
    refine (alike_ofOutcome (Q := fun _ => True) fun _ _ => trivial).bind fun _ _ => ?_
    refine alike_evalSequence ?_ ⟨henv, trivial⟩
    rw [hes]
    exact fun e h env henv => ih e h (hsteps e h) henv

/-- By induction on the calls that are allowed. The bodies of closures may be blocks. -/
theorem alikeCalls_evalWithin (n : Nat) : C.AlikeCalls (evalWithin n) := by
  induction n with
  | zero => exact fun _ _ _ _ => alike_fail _
  | succ n ih => exact fun body scope hscope hbody => alike_code ih hbody.1 hbody.2 hscope

theorem alike_eval {e : Value} (he : C.Expr e) {env : ScopeId} (henv : C.Env env) :
    Alike C.Rel (eval e env) C.Good := by
  rw [eval_eq_evalWithin]
  exact alikeCalls_evalWithin callLimit e env henv he.body

end Coupling

end SlotLisp
