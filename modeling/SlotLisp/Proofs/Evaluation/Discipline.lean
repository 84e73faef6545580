import SlotLisp.Machine.Execution
import SlotLisp.Proofs.Evaluation.Block
import SlotLisp.Proofs.Evaluation.Hosts

/-!
# Disciplines of evaluation

A `Discipline` is an invariant of stores together with the scopes that code may run in, the closures
that it may call and the symbols that it may contain. Its laws are about the elementary changes of
a store and the functions of the host. From them evaluation keeps to the discipline as a whole, at
any depth and up to any error (`keepsCalls_evalWithin`), and ends in the environment it began in.
-/

namespace SlotLisp

variable [Host]

/-- An invariant of stores, and what code may use: scopes, closures and symbols. The laws say that
what code can do with these keeps the invariant. -/
structure Discipline where
  Inv : Store → Prop
  /-- Code may run in this scope. -/
  Env : Store → ScopeId → Prop
  /-- A closure of these parameters, this body and this captured scope may be called. -/
  Closure : Store → Value → Value → ScopeId → Prop
  /-- Code may contain this symbol. -/
  Sym : String → Prop
  env_mono {st st' : Store} {scope : ScopeId} : st.Grows st' → Env st scope → Env st' scope
  closure_mono {st st' : Store} {params body : Value} {scope : ScopeId} :
    st.Grows st' → Closure st params body scope → Closure st' params body scope
  content {st st' : Store} :
    Inv st → st'.scopes = st.scopes → st'.slots = st.slots → Inv st'
  define_sym : Sym SpecialForm.define.name
  begin_sym : Sym SpecialForm.begin.name
  lambda {st : Store} {env : ScopeId} {operands params body : Value} :
    Env st env → checkParameters operands [] params = .ok () → body.Symbols Sym →
      Closure st params body env
  code {st : Store} {params body : Value} {scope : ScopeId} :
    Closure st params body scope → body.Symbols Sym
  enter {st : Store} {params body : Value} {scope : ScopeId} :
    Inv st → Closure st params body scope →
      Inv (st.newScope (some scope)).2 ∧ Env (st.newScope (some scope)).2 st.scopes.size
  lookup {st : Store} {env : ScopeId} {name : String} {v : Value} :
    Inv st → Env st env → st.valueOf? env name = some v → v.Closures (Closure st)
  bind {st : Store} {env : ScopeId} {name : String} {v : Value} :
    Inv st → Env st env → v.Closures (Closure st) → Inv (st.bind env name v)
  share {st : Store} {env : ScopeId} {name source : String} {slot : SlotId} :
    Inv st → Env st env → st.slotOf? env source = some slot → Inv (st.bindSlot env name slot)
  assign {st st' : Store} {env : ScopeId} {name : String} {v : Value} :
    Sym SpecialForm.assign.name → Inv st → Env st env → v.Closures (Closure st) →
      st.assign? env name v = some st' → Inv st'
  /-- The functions of the host are bound by the invariant, too. -/
  host : Host.Keeps Inv Closure

namespace Discipline

variable {D : Discipline} {st st' : Store}

/-- The closures in a value may be called. -/
def Val (D : Discipline) (st : Store) (v : Value) : Prop := v.Closures (D.Closure st)

/-- An expression that may be evaluated. -/
def Expr (D : Discipline) (st : Store) (e : Value) : Prop := e.Symbols D.Sym ∧ D.Val st e

/-- What may be used stays usable, as a store grows. -/
theorem Val.mono (h : st.Grows st') {v : Value} (hv : D.Val st v) : D.Val st' v :=
  Value.Closures.mono (fun _ _ _ => D.closure_mono h) hv

theorem Expr.mono (h : st.Grows st') {e : Value} (he : D.Expr st e) : D.Expr st' e :=
  ⟨he.1, he.2.mono h⟩

theorem Expr.car {mark : Option Nat} {a d : Value} (h : D.Expr st (.pair mark a d)) :
    D.Expr st a := ⟨h.1.1, h.2.1⟩

theorem Expr.cdr {mark : Option Nat} {a d : Value} (h : D.Expr st (.pair mark a d)) :
    D.Expr st d := ⟨h.1.2, h.2.2⟩

theorem Expr.elements {e : Value} (h : D.Expr st e) : ∀ x ∈ e.elements, D.Expr st x :=
  fun x hx => ⟨h.1.elements x hx, h.2.elements x hx⟩

theorem Expr.ofList {es : List Value} (h : ∀ e ∈ es, D.Expr st e) : D.Expr st (.ofList es) :=
  ⟨Value.symbols_ofList fun e he => (h e he).1, Value.closures_ofList fun e he => (h e he).2⟩

/-- From `st` the run keeps to the discipline, and a result satisfies `Q`. -/
structure Keeps (D : Discipline) {α : Type} (act : Run α) (st : Store) (Q : Store → α → Prop) :
    Prop where
  inv : D.Inv (act.leaves st)
  grows : st.Grows (act.leaves st)
  result : ∀ a st', act st = .ok a st' → Q st' a

/-! ## Putting runs together -/

section Rules

variable {α β : Type} {Q : Store → α → Prop} {R : Store → β → Prop}

theorem keeps_ok {act : Run α} {a : α} (h : act st = .ok a st') (hinv : D.Inv st')
    (hgrows : st.Grows st') (hq : Q st' a) : D.Keeps act st Q := by
  have hleaves : act.leaves st = st' := by simp [Run.leaves, h]
  refine ⟨hleaves ▸ hinv, hleaves ▸ hgrows, fun b st'' hb => ?_⟩
  rw [h] at hb
  cases hb
  exact hq

theorem keeps_pure {a : α} (hinv : D.Inv st) (hq : Q st a) : D.Keeps (pure a) st Q :=
  keeps_ok rfl hinv (.refl st) hq

/-- A run that fails without having changed the store. -/
theorem keeps_error {act : Run α} {e : Error} (h : act st = .error e st) (hinv : D.Inv st) :
    D.Keeps act st Q := by
  have hleaves : act.leaves st = st := by simp [Run.leaves, h]
  refine ⟨hleaves.symm ▸ hinv, hleaves.symm ▸ .refl st, fun b st'' hb => ?_⟩
  rw [h] at hb
  cases hb

/-- What comes after a success may take for granted what is known of its result. After a failure
nothing comes, so that the store it leaves is the last one. -/
theorem Keeps.bind {act : Run α} {next : α → Run β} (hact : D.Keeps act st Q)
    (hnext : ∀ a st', D.Inv st' → st.Grows st' → Q st' a → D.Keeps (next a) st' R) :
    D.Keeps (act >>= next) st R := by
  have hinv := hact.inv
  have hgrows := hact.grows
  cases h : act st with
  | ok a st' =>
    have hbind := Machine.bind_of_ok (f := next) h
    simp only [Run.leaves, h] at hinv hgrows
    obtain ⟨hinv', hgrows', hr⟩ := hnext a st' hinv hgrows (hact.result a st' h)
    simp only [Run.leaves] at hinv' hgrows'
    refine ⟨?_, hgrows.trans ?_, fun b st'' hb => hr b st'' (hbind ▸ hb)⟩
    · simpa only [Run.leaves, hbind] using hinv'
    · simpa only [Run.leaves, hbind] using hgrows'
  | error e st' =>
    have hbind := Machine.bind_of_error (f := next) h
    simp only [Run.leaves, h] at hinv hgrows
    refine ⟨?_, ?_, fun b st'' hb => ?_⟩
    · simpa only [Run.leaves, hbind] using hinv
    · simpa only [Run.leaves, hbind] using hgrows
    · rw [hbind] at hb
      cases hb

theorem Keeps.mono {act : Run α} {Q' : Store → α → Prop} (hact : D.Keeps act st Q)
    (hq : ∀ a st', st.Grows st' → Q st' a → Q' st' a) : D.Keeps act st Q' := by
  refine ⟨hact.inv, hact.grows, fun a st' h => hq a st' ?_ (hact.result a st' h)⟩
  have hgrows := hact.grows
  simpa only [Run.leaves, h] using hgrows

/-- Naming a combination in an error changes neither the store nor a result. -/
theorem Keeps.within {act : Run α} (hact : D.Keeps act st Q) (form : Value) :
    D.Keeps (Run.within form act) st Q := by
  have hinv := hact.inv
  have hgrows := hact.grows
  have hr := hact.result
  simp only [Run.leaves] at hinv hgrows
  refine ⟨?_, ?_, fun a st' h => ?_⟩ <;> unfold Run.within at *
  · simp only [Run.leaves]
    cases h : act st <;> simpa only [h] using hinv
  · simp only [Run.leaves]
    cases h : act st <;> simpa only [h] using hgrows
  · cases h' : act st with
    | ok b st'' =>
      simp only [h'] at h
      cases h
      exact hr _ _ h'
    | error e st'' =>
      simp only [h'] at h
      cases h

theorem keeps_ofOutcome {o : Outcome α} (hinv : D.Inv st) (hq : ∀ a, o = .ok a → Q st a) :
    D.Keeps (Run.ofOutcome o) st Q := by
  cases o with
  | ok a => exact keeps_pure hinv (hq a rfl)
  | error e => exact keeps_error rfl hinv

theorem keeps_fail {p : Problem} (hinv : D.Inv st) : D.Keeps (Run.fail p : Run α) st Q :=
  keeps_error rfl hinv

end Rules

/-! ## Elementary runs -/

section Elementary

variable {env : ScopeId} {name : String} {v : Value}

/-- What a name holds may be used. -/
theorem keeps_lookup (hinv : D.Inv st) (henv : D.Env st env) :
    D.Keeps (Run.lookup env name) st D.Val := by
  cases h : st.valueOf? env name with
  | none =>
    have hrun : Run.lookup env name st = .error (.unbound name) st := by simp [Run.lookup, h]
    exact keeps_error hrun hinv
  | some v =>
    have hrun : Run.lookup env name st = .ok v st := by simp [Run.lookup, h]
    exact keeps_ok hrun hinv (.refl st) (D.lookup hinv henv h)

/-- A name defined by another one shares its slot, if that one has any. -/
theorem keeps_share {source : String} (hinv : D.Inv st) (henv : D.Env st env) :
    D.Keeps (do Run.bindSlot env name (← Run.lookupSlot env source)) st fun _ _ => True := by
  cases h : st.slotOf? env source with
  | none => exact keeps_error (Machine.bind_of_error (Run.lookupSlot_of_unbound h)) hinv
  | some slot =>
    exact keeps_ok (Machine.bind_of_ok (Run.lookupSlot_of_bound h)) (D.share hinv henv h)
      (.bindSlot st env name slot) trivial

theorem keeps_bindName (hinv : D.Inv st) (henv : D.Env st env) (hv : D.Val st v) :
    D.Keeps (Run.bind env name v) st fun _ _ => True :=
  keeps_ok rfl (D.bind hinv henv hv) (.bind st env name v) trivial

theorem keeps_assign (hsym : D.Sym SpecialForm.assign.name) (hinv : D.Inv st)
    (henv : D.Env st env) (hv : D.Val st v) :
    D.Keeps (Run.assign env name v) st fun _ _ => True := by
  cases h : st.assign? env name v with
  | none =>
    have hrun : Run.assign env name v st = .error (.unbound name) st := by simp [Run.assign, h]
    exact keeps_error hrun hinv
  | some st' =>
    have hrun : Run.assign env name v st = .ok () st' := by simp [Run.assign, h]
    exact keeps_ok hrun (D.assign hsym hinv henv hv h) (.assign h) trivial

/-- Marks are no content of a store. -/
theorem keeps_newMark (hinv : D.Inv st) : D.Keeps Run.newMark st fun _ _ => True :=
  keeps_ok rfl (D.content hinv rfl rfl) (.of_content rfl rfl) trivial

theorem keeps_place (hinv : D.Inv st) (hv : D.Val st v) : D.Keeps (Run.place v) st D.Val := by
  have hgrows : st.Grows (st.place v).2 := .of_content rfl rfl
  exact keeps_ok rfl (D.content hinv rfl rfl) hgrows (Val.mono hgrows (st.closures_place hv))

end Elementary

/-! ## Calls -/

/-- A builtin operation makes no closure, and the host is bound by its law. -/
theorem keeps_native {f : Native} {args : List Value} (hinv : D.Inv st)
    (hargs : ∀ v ∈ args, D.Val st v) : D.Keeps (f.call args) st D.Val := by
  cases f with
  | builtin op =>
    exact (keeps_ofOutcome (Q := fun st v => D.Val st v) hinv fun v h =>
      op.closures_run h hargs).bind fun v st' hinv' _ hv => keeps_place hinv' hv
  | host name key =>
    obtain ⟨hinv', hgrows, hresult⟩ := D.host key args st hinv hargs
    have hcall : D.Keeps (Host.call key args) st D.Val := ⟨hinv', hgrows, hresult⟩
    exact hcall.bind fun v st' hinv'' _ hv => keeps_place hinv'' hv

/-- The parameters may be of any shape here: what is no name fails, and what is too many is left. -/
theorem keeps_bindParameters {scope : ScopeId} {params : Value} {args : List Value}
    (hinv : D.Inv st) (henv : D.Env st scope) (hargs : ∀ v ∈ args, D.Val st v) :
    D.Keeps (bindParameters scope params args) st fun _ _ => True := by
  induction params generalizing st args with
  | pair mark p rest _ ih =>
    cases args with
    | nil =>
      rw [bindParameters_nil]
      exact keeps_pure hinv trivial
    | cons v vs =>
      rw [List.forall_mem_cons] at hargs
      cases p with
      | symbol name =>
        rw [bindParameters]
        exact (keeps_bindName hinv henv hargs.1).bind fun _ st' hinv' hgrows _ =>
          ih hinv' (D.env_mono hgrows henv) fun x hx => (hargs.2 x hx).mono hgrows
      | _ =>
        rw [bindParameters.eq_def]
        exact keeps_fail hinv
  | symbol name =>
    rw [bindParameters]
    exact (keeps_place hinv (Value.closures_ofList hargs)).bind fun v st' hinv' hgrows hv =>
      keeps_bindName hinv' (D.env_mono hgrows henv) hv
  | _ =>
    rw [bindParameters.eq_def]
    exact keeps_pure hinv trivial

/-- The body of a closure is entered in a scope that code may run in. -/
theorem keeps_enterClosure {params body : Value} {captured : ScopeId} {args : List Value}
    (hinv : D.Inv st) (hclosure : D.Closure st params body captured)
    (hargs : ∀ v ∈ args, D.Val st v) :
    D.Keeps (enterClosure params captured args) st D.Env := by
  unfold enterClosure
  simp only
  split
  · exact keeps_fail hinv
  · obtain ⟨hinv', henv'⟩ := D.enter hinv hclosure
    have hgrows := Store.Grows.newScope st (some captured)
    have hnew : D.Keeps (Run.newScope (some captured)) st fun st' scope => D.Env st' scope :=
      keeps_ok rfl hinv' hgrows henv'
    refine hnew.bind fun scope st' hinv hgrows henv => ?_
    apply (keeps_bindParameters hinv henv fun v hv => (hargs v hv).mono hgrows).bind
    exact fun _ st'' hinv' hgrows' _ => keeps_pure hinv' (D.env_mono hgrows' henv)

/-- The value may be used, and the environment is still `env`. -/
def Stays (D : Discipline) (env : ScopeId) (st : Store) (context : Context) : Prop :=
  context.env = env ∧ D.Val st context.value

/-- `call` keeps to the discipline and ends in the environment it began in. -/
def KeepsCalls (D : Discipline) (call : Caller) : Prop :=
  ∀ (st : Store) (body : Value) (scope : ScopeId), D.Inv st → D.Env st scope → D.Expr st body →
    D.Keeps (call body scope) st (D.Stays scope)

/-- The body is the only code of a call, and it is as `code` says of the closures that may be
called. -/
theorem keeps_applyTo {call : Caller} (hcall : D.KeepsCalls call) {args : List Value}
    {callee : Value} (hinv : D.Inv st) (hcallee : D.Val st callee)
    (hargs : ∀ v ∈ args, D.Val st v) : D.Keeps (applyTo call args callee) st D.Val := by
  cases callee with
  | native f => exact keeps_native hinv hargs
  | closure mark params body captured =>
    obtain ⟨hclosure, -, hbody⟩ := hcallee
    have hcode : D.Expr st body := ⟨D.code hclosure, hbody⟩
    refine (keeps_enterClosure hinv hclosure hargs).bind fun scope st' hinv' hgrows henv => ?_
    apply (hcall st' body scope hinv' henv (hcode.mono hgrows)).bind
    exact fun context st'' hinv'' _ hstays => keeps_pure hinv'' hstays.2
  | _ => exact keeps_fail hinv

/-! ## Special forms -/

/-- A closure captures an environment that code may run in, so it may be called. -/
theorem keeps_lambdaForm {operands : Value} {env : ScopeId} (hinv : D.Inv st)
    (henv : D.Env st env) (hop : D.Expr st operands) :
    D.Keeps (lambdaForm operands env) st D.Val := by
  unfold lambdaForm
  split
  · rename_i m params m' body
    have hparams : D.Expr st params := hop.car
    have hbody : D.Expr st body := hop.cdr.car
    refine (keeps_ofOutcome (Q := fun _ _ => checkParameters
      (.pair m params (.pair m' body .nil)) [] params = .ok ()) hinv fun _ h => h).bind ?_
    intro _ st' hinv' hgrows hcheck
    refine (keeps_newMark hinv').bind fun mark st'' hinv'' hgrows' _ => keeps_pure hinv'' ?_
    have hgrows'' := hgrows.trans hgrows'
    exact ⟨D.lambda (D.env_mono hgrows'' henv) hcheck hbody.1, hparams.2.mono hgrows'',
      hbody.2.mono hgrows''⟩
  · exact keeps_ofOutcome hinv fun v h => by cases h

theorem keeps_defunForm {operands : Value} {env : ScopeId} (hinv : D.Inv st)
    (henv : D.Env st env) (hop : D.Expr st operands) :
    D.Keeps (defunForm operands env) st fun _ _ => True := by
  unfold defunForm
  split
  · refine Keeps.within (Keeps.bind (Keeps.within (keeps_lambdaForm hinv henv ?_) _) ?_) _
    · exact Expr.ofList (by simp [hop.cdr.car, hop.cdr.cdr.car])
    · exact fun v st' hinv' hgrows hv => keeps_bindName hinv' (D.env_mono hgrows henv) hv
  · exact keeps_ofOutcome hinv fun _ _ => trivial

theorem expr_definitionOf {name : String} {init : Value} (hname : D.Sym name)
    (hinit : D.Expr st init) : D.Expr st (definitionOf name init) := by
  have hdefine : D.Expr st (.symbol SpecialForm.define.name) := ⟨D.define_sym, trivial⟩
  have hsymbol : D.Expr st (.symbol name) := ⟨hname, trivial⟩
  exact Expr.ofList (by simp [hdefine, hsymbol, hinit])

/-- A block consists of parts of the `let` and of the names of two special forms. -/
theorem expr_letBlock {operands block : Value} (h : letBlock operands = .ok block)
    (hop : D.Expr st operands) : D.Expr st block := by
  obtain ⟨es, rfl, hes⟩ := forall_letBlock h hop.elements (fun _ he => he.elements)
    (fun _ _ _ _ hbinding => expr_definitionOf hbinding.car.1 hbinding.cdr.car) fun _ he => he
  have hlist := Expr.ofList hes
  exact ⟨⟨D.begin_sym, hlist.1⟩, trivial, hlist.2⟩

/-- The function that a `let` stands for has to be one that may be called. -/
theorem keeps_letForm {call : Caller} (hcall : D.KeepsCalls call) {operands : Value}
    {env : ScopeId} (hinv : D.Inv st) (hop : D.Expr st operands)
    (hclosure : ∀ st', st.Grows st' → ∀ body, body.Symbols D.Sym →
      D.Closure st' .nil body env) :
    D.Keeps (letForm call operands env) st D.Val := by
  unfold letForm
  cases hblock : letBlock operands with
  | error e => exact keeps_error rfl hinv
  | ok block =>
    have hexpr : D.Expr st block := expr_letBlock hblock hop
    refine Keeps.within ((keeps_newMark hinv).bind fun mark st' hinv' hgrows _ => ?_) _
    have hfunction : D.Val st' (.closure mark .nil block env) :=
      ⟨hclosure st' hgrows block hexpr.1, trivial, (hexpr.mono hgrows).2⟩
    exact keeps_applyTo hcall hinv' hfunction (by simp)

/-! ## Evaluation -/

/-- Evaluating `e` keeps to the discipline and ends in the environment it began in. -/
def KeepsForm (D : Discipline) (call : Caller) (e : Value) : Prop :=
  ∀ (st : Store) (env : ScopeId), D.Inv st → D.Env st env → D.Expr st e →
    D.Keeps (evalForm call e env) st (D.Stays env)

section Forms

variable {call : Caller} {operands : Value} {env : ScopeId}

theorem keeps_evalDefine (hforms : ∀ e ∈ operands.elements, D.KeepsForm call e)
    (hinv : D.Inv st) (henv : D.Env st env) (hop : D.Expr st operands) :
    D.Keeps (evalDefine call operands env) st fun _ _ => True := by
  rw [evalDefine.eq_def]
  split
  · exact keeps_share hinv henv
  · rename_i init _
    apply (hforms init (by simp) st env hinv henv hop.cdr.car).bind
    exact fun context st' hinv' hgrows hstays =>
      keeps_bindName hinv' (D.env_mono hgrows henv) hstays.2
  · exact keeps_ofOutcome hinv fun _ _ => trivial

theorem keeps_evalAssign (hsym : D.Sym SpecialForm.assign.name)
    (hforms : ∀ e ∈ operands.elements, D.KeepsForm call e)
    (hinv : D.Inv st) (henv : D.Env st env) (hop : D.Expr st operands) :
    D.Keeps (evalAssign call operands env) st fun _ _ => True := by
  rw [evalAssign.eq_def]
  split
  · rename_i e
    apply (hforms e (by simp) st env hinv henv hop.cdr.car).bind
    exact fun context st' hinv' hgrows hstays =>
      keeps_assign hsym hinv' (D.env_mono hgrows henv) hstays.2
  · exact keeps_ofOutcome hinv fun _ _ => trivial

/-- Each step begins where the one before it ended, which is the environment of the first. -/
theorem keeps_evalSequence {es : Value} (hforms : ∀ e ∈ es.elements, D.KeepsForm call e)
    {context : Context} (hinv : D.Inv st) (henv : D.Env st env) (hes : D.Expr st es)
    (hcontext : D.Stays env st context) :
    D.Keeps (evalSequence call es context) st (D.Stays env) := by
  induction es generalizing st context with
  | pair mark e rest _ ih =>
    rw [Value.elements_pair, List.forall_mem_cons] at hforms
    rw [evalSequence, hcontext.1]
    refine (hforms.1 st env hinv henv hes.car).bind fun context st' hinv' hgrows hstays => ?_
    exact ih hforms.2 hinv' (D.env_mono hgrows henv) (hes.cdr.mono hgrows) hstays
  | _ =>
    rw [evalSequence.eq_def]
    exact keeps_pure hinv hcontext

theorem keeps_evalBranch (hforms : ∀ e ∈ operands.elements, D.KeepsForm call e)
    (hinv : D.Inv st) (henv : D.Env st env) (hop : D.Expr st operands) :
    D.Keeps (evalBranch call operands env) st (D.Stays env) := by
  rw [evalBranch.eq_def]
  split
  · rename_i condition _ consequent
    apply (hforms condition (by simp) st env hinv henv hop.car).bind
    rintro ⟨test, env'⟩ st' hinv' hgrows ⟨rfl, htest⟩
    simp only
    split
    · exact hforms consequent (by simp) st' env' hinv' (D.env_mono hgrows henv)
        (hop.cdr.car.mono hgrows)
    · exact keeps_pure hinv' ⟨rfl, trivial⟩
  · rename_i condition _ consequent _ alternative
    apply (hforms condition (by simp) st env hinv henv hop.car).bind
    rintro ⟨test, env'⟩ st' hinv' hgrows ⟨rfl, htest⟩
    simp only
    split
    · exact hforms consequent (by simp) st' env' hinv' (D.env_mono hgrows henv)
        (hop.cdr.car.mono hgrows)
    · exact hforms alternative (by simp) st' env' hinv' (D.env_mono hgrows henv)
        (hop.cdr.cdr.car.mono hgrows)
  · exact keeps_ofOutcome hinv fun v h => by cases h

/-- The values so far may still be used when all operands have been evaluated. -/
theorem keeps_evalArguments {es : Value} (hforms : ∀ e ∈ es.elements, D.KeepsForm call e)
    {args : List Value} (hinv : D.Inv st) (henv : D.Env st env) (hes : D.Expr st es)
    (hargs : ∀ v ∈ args, D.Val st v) :
    D.Keeps (evalArguments call es args env) st fun st' result =>
      (∀ v ∈ result.1, D.Val st' v) ∧ result.2 = env := by
  induction es generalizing st args with
  | pair mark e rest _ ih =>
    rw [Value.elements_pair, List.forall_mem_cons] at hforms
    rw [evalArguments]
    apply (hforms.1 st env hinv henv hes.car).bind
    rintro ⟨v, env'⟩ st' hinv' hgrows ⟨rfl, hv⟩
    apply ih hforms.2 hinv' (D.env_mono hgrows henv) (hes.cdr.mono hgrows)
    rw [List.forall_mem_cons]
    exact ⟨hv, fun x hx => (hargs x hx).mono hgrows⟩
  | _ =>
    rw [evalArguments.eq_def]
    exact keeps_pure hinv ⟨fun v hv => hargs v (List.mem_reverse.1 hv), rfl⟩

end Forms

theorem keeps_combination {call : Caller} (hcall : D.KeepsCalls call) {mark : Option Nat}
    {head operands : Value} (hhead : D.KeepsForm call head)
    (hforms : ∀ e ∈ operands.elements, D.KeepsForm call e) :
    D.KeepsForm call (.pair mark head operands) := by
  intro st env hinv henv he
  rw [evalForm]
  refine Keeps.within ?_ _
  have hop : D.Expr st operands := he.cdr
  cases hform : head.symbol?.bind SpecialForm.named? with
  | some form =>
    simp only
    apply (keeps_ofOutcome (Q := fun _ _ => True) hinv fun _ _ => trivial).bind
    intro _ st' hinv' hgrows _
    have henv' : D.Env st' env := D.env_mono hgrows henv
    have hop' : D.Expr st' operands := hop.mono hgrows
    cases form with
    | quote =>
      refine (keeps_ofOutcome (Q := fun st v => D.Val st v) hinv' fun v h => ?_).bind ?_
      · unfold quoteForm at h
        split at h
        · obtain rfl := Except.ok.inj h
          exact hop'.car.2
        · cases h
      · exact fun v _ hinv _ hv => keeps_pure hinv ⟨rfl, hv⟩
    | lambda =>
      apply (keeps_lambdaForm hinv' henv' hop').bind
      exact fun v _ hinv _ hv => keeps_pure hinv ⟨rfl, hv⟩
    | letIn =>
      refine (keeps_letForm hcall hinv' hop' fun st'' hgrows' body hbody => ?_).bind ?_
      · have hcheck : checkParameters operands [] .nil = .ok () := rfl
        exact D.lambda (D.env_mono hgrows' henv') hcheck hbody
      · exact fun v _ hinv _ hv => keeps_pure hinv ⟨rfl, hv⟩
    | defun =>
      apply (keeps_defunForm hinv' henv' hop').bind
      exact fun _ _ hinv _ _ => keeps_pure hinv ⟨rfl, trivial⟩
    | define =>
      apply (keeps_evalDefine hforms hinv' henv' hop').bind
      exact fun _ _ hinv _ _ => keeps_pure hinv ⟨rfl, trivial⟩
    | assign =>
      have hhead : head.Symbols D.Sym := he.1.1
      have hsym : D.Sym SpecialForm.assign.name := hhead.formName hform
      apply (keeps_evalAssign hsym hforms hinv' henv' hop').bind
      exact fun _ _ hinv _ _ => keeps_pure hinv ⟨rfl, trivial⟩
    | begin => exact keeps_evalSequence hforms hinv' henv' hop' ⟨rfl, trivial⟩
    | branch => exact keeps_evalBranch hforms hinv' henv' hop'
  | none =>
    simp only
    split
    · exact keeps_fail hinv
    · apply (hhead st env hinv henv he.car).bind
      rintro ⟨callee, env'⟩ st' hinv' hgrows ⟨rfl, hcallee⟩
      have hnone : ∀ v ∈ ([] : List Value), D.Val st' v := by simp
      refine (keeps_evalArguments hforms hinv' (D.env_mono hgrows henv) (hop.mono hgrows)
        hnone).bind ?_
      rintro ⟨args, env''⟩ st'' hinv'' hgrows' ⟨hargs, rfl⟩
      apply (keeps_applyTo hcall hinv'' (hcallee.mono hgrows') hargs).bind
      exact fun v _ hinv _ hv => keeps_pure hinv ⟨rfl, hv⟩

/-- By induction on the expression, for any way to evaluate bodies that keeps to the discipline. -/
theorem keepsForm {call : Caller} (hcall : D.KeepsCalls call) (e : Value) :
    D.KeepsForm call e := by
  induction e using Value.form_induction with
  | combination mark head operands hhead hoperands =>
    exact keeps_combination hcall hhead hoperands
  | atom v hv =>
    intro st env hinv henv he
    cases v with
    | pair mark a d => exact absurd rfl (hv mark a d)
    | symbol name =>
      rw [evalForm]
      exact (keeps_lookup hinv henv).bind fun v _ hinv _ hv => keeps_pure hinv ⟨rfl, hv⟩
    | _ =>
      rw [evalForm.eq_def]
      exact keeps_pure hinv ⟨rfl, he.2⟩

/-- By induction on the calls that are allowed. -/
theorem keepsCalls_evalWithin (n : Nat) : D.KeepsCalls (evalWithin n) := by
  induction n with
  | zero => exact fun _ _ _ hinv _ _ => keeps_fail hinv
  | succ n ih => exact fun st e env => keepsForm ih e st env

theorem keeps_eval (e : Value) {env : ScopeId} (hinv : D.Inv st) (henv : D.Env st env)
    (he : D.Expr st e) : D.Keeps (eval e env) st (D.Stays env) := by
  rw [eval_eq_evalWithin]
  exact keepsCalls_evalWithin callLimit st e env hinv henv he

end Discipline

end SlotLisp
