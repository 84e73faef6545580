import SlotLisp.Proofs.Evaluation.CallLimit
import SlotLisp.Proofs.Evaluation.Locality

/-!
# The scope of a `let`

A `let` is rewritten to the call of a function whose body defines one name after the other. What
comes of it is one new scope that is filled in order, in which every initializer and then the body
are evaluated one call further in (`let_fills_one_scope`); an error may only name another
combination.
-/

namespace SlotLisp

open Store

/-! ## Errors that name different combinations -/

/-- The runs end with the same result, or with errors of one cause, in the same store. -/
inductive SameButContext {α : Type} :
    EStateM.Result Error Store α → EStateM.Result Error Store α → Prop
  | ok (a : α) (st : Store) : SameButContext (.ok a st) (.ok a st)
  | error {e e' : Error} (st : Store) (same : e'.problem = e.problem) :
      SameButContext (.error e st) (.error e' st)

/-- Started in the same store, the runs end the same but for the context of an error. -/
def Run.MatchesButContext {α : Type} (act act' : Run α) : Prop :=
  ∀ st, SameButContext (act st) (act' st)

namespace Run.MatchesButContext

variable {α β : Type} {act act' : Run α}

theorem refl (act : Run α) : act.MatchesButContext act := by
  intro st
  cases act st with
  | ok a st' => exact .ok a st'
  | error e st' => exact .error st' rfl

theorem bind (h : act.MatchesButContext act') {next next' : α → Run β}
    (hnext : ∀ a, (next a).MatchesButContext (next' a)) :
    (act >>= next).MatchesButContext (act' >>= next') := by
  intro st
  have hend := h st
  generalize hact : act st = r, hact' : act' st = r' at hend
  cases hend with
  | ok a st' =>
    rw [Machine.bind_of_ok hact, Machine.bind_of_ok hact']
    exact hnext a st'
  | error st' same =>
    rw [Machine.bind_of_error hact, Machine.bind_of_error hact']
    exact .error st' same

theorem within (h : act.MatchesButContext act') (form : Value) :
    act.MatchesButContext (Run.within form act') := by
  intro st
  have hend := h st
  generalize hact : act st = r, hact' : act' st = r' at hend
  cases hend with
  | ok a st' =>
    rw [Run.within_of_ok form hact']
    exact .ok a st'
  | error st' same =>
    rw [Run.within_of_error form hact']
    exact .error st' ((Error.problem_within _ form).trans same)

end Run.MatchesButContext

/-! ## Filling a scope -/

/-- Makes a name of the scope refer to the slot that another name refers to from there, or else to a
new slot with the value that an expression has there. -/
def introduce (evaluate : Caller) (scope : ScopeId) (name : String) : Value → Run Unit
  | .symbol source => do Run.bindSlot scope name (← Run.lookupSlot scope source)
  | init => do Run.bind scope name (← evaluate init scope).value

def introduceAll (evaluate : Caller) (scope : ScopeId) : List (String × Value) → Run Unit
  | [] => return
  | (name, init) :: rest => do
    introduce evaluate scope name init
    introduceAll evaluate scope rest

/-- A new scope for a block. The function that the block is rewritten to takes a mark. -/
def openBlock (env : ScopeId) : Run ScopeId := do
  let _ ← Run.newMark
  Run.newScope (some env)

/-- A block: one new scope, filled in order, and then the body in it. -/
def runBlock (evaluate : Caller) (entries : List (String × Value)) (body : Value)
    (env : ScopeId) : Run Value := do
  let scope ← openBlock env
  introduceAll evaluate scope entries
  return (← evaluate body scope).value

/-- The bindings of a `let`: a list of lists of a name and an expression. -/
inductive BindingList : Value → List (String × Value) → Prop
  | nil : BindingList .nil []
  | cons {mark mark' mark'' : Option Nat} {name : String} {init rest : Value}
      {entries : List (String × Value)} (more : BindingList rest entries) :
      BindingList (.pair mark (.pair mark' (.symbol name) (.pair mark'' init .nil)) rest)
        ((name, init) :: entries)

/-- The `begin` that a `let` with these bindings and this body is rewritten to. -/
def blockOfEntries (entries : List (String × Value)) (body : Value) : Value :=
  Value.cons (.symbol SpecialForm.begin.name)
    (.ofList (entries.map (fun entry => definitionOf entry.1 entry.2) ++ [body]))

/-! ## The rewriting -/

section Rewriting

variable {bindings : Value} {entries : List (String × Value)}

theorem BindingList.isProper (h : BindingList bindings entries) : bindings.isProper = true := by
  induction h with
  | nil => rfl
  | cons _ ih => exact ih

theorem BindingList.letDefinitions_eq (h : BindingList bindings entries) :
    letDefinitions bindings.elements =
      .ok (entries.map fun entry => definitionOf entry.1 entry.2) := by
  induction h with
  | nil => rfl
  | cons _ ih =>
    rw [Value.elements_pair, letDefinitions, ih]
    rfl

theorem BindingList.letBlock_eq (h : BindingList bindings entries) (mark mark' : Option Nat)
    (body : Value) :
    letBlock (.pair mark bindings (.pair mark' body .nil)) = .ok (blockOfEntries entries body) := by
  have helements : (Value.pair mark bindings (.pair mark' body .nil)).elements =
      [bindings, body] := by
    rw [Value.elements_pair, Value.elements_pair]
    rfl
  simp only [letBlock, helements, h.letDefinitions_eq, h.isProper]
  rfl

variable [Host]

/-! ## The block that is evaluated -/

theorem evalForm_definitionOf (call : Caller) (name : String) (init : Value) (scope : ScopeId) :
    evalForm call (definitionOf name init) scope = Run.within (definitionOf name init) do
      introduce (evalForm call) scope name init
      return ⟨.nil, scope⟩ := by
  have hcheck (whole : Value) :
      checkOperands .define whole (.cons (.symbol name) (.cons init .nil)) = .ok () := rfl
  have hdefine : evalDefine call (.cons (.symbol name) (.cons init .nil)) scope =
      introduce (evalForm call) scope name init := by
    cases init <;> rfl
  simp only [definitionOf, Value.ofList, Value.ofListTail_cons, Value.ofListTail_nil]
  rw [evalForm]
  simp only [Value.symbol?, Option.bind_some, SpecialForm.named?_name, hcheck, Run.ofOutcome,
    pure_bind, hdefine]

/-- The steps of the block are the definitions, and then the body. -/
theorem evalSequence_block (call : Caller) (entries : List (String × Value)) (body v : Value)
    (scope : ScopeId) :
    (do introduceAll (evalForm call) scope entries; evalForm call body scope :
      Run Context).MatchesButContext
      (evalSequence call (.ofList (entries.map (fun entry => definitionOf entry.1 entry.2) ++
        [body])) ⟨v, scope⟩) := by
  induction entries generalizing v scope with
  | nil =>
    rw [introduceAll, pure_bind, List.map_nil, List.nil_append, evalSequence_singleton]
    exact .refl _
  | cons entry entries ih =>
    obtain ⟨name, init⟩ := entry
    -- The step ends in the scope that it began in, which is where the rest goes on.
    have hstep : (introduceAll (evalForm call) scope ((name, init) :: entries) >>= fun _ =>
          evalForm call body scope) =
        (introduce (evalForm call) scope name init >>= fun _ =>
          (pure ⟨.nil, scope⟩ : Run Context)) >>= fun context =>
            introduceAll (evalForm call) context.env entries >>= fun _ =>
              evalForm call body context.env := by
      simp only [introduceAll, bind_assoc, pure_bind]
    rw [hstep, List.map_cons, List.cons_append, Value.ofList, Value.ofListTail_cons, evalSequence,
      evalForm_definitionOf]
    exact ((Run.MatchesButContext.refl _).within _).bind fun context =>
      ih context.value context.env

/-- The block, evaluated in its scope, fills the scope and goes on with the body. -/
theorem evalForm_blockOfEntries (call : Caller) (entries : List (String × Value)) (body : Value)
    (scope : ScopeId) :
    (introduceAll (evalForm call) scope entries >>= fun _ =>
      evalForm call body scope).MatchesButContext
      (evalForm call (blockOfEntries entries body) scope) := by
  rw [blockOfEntries, evalForm_begin]
  exact (evalSequence_block call entries body .nil scope).within _

theorem applyTo_block (call : Caller) (block : Value) (mark : Nat) (env : ScopeId) :
    applyTo call [] (.closure mark .nil block env) = do
      return (← call block (← Run.newScope (some env))).value := rfl

theorem letForm_matches (h : BindingList bindings entries) (call : Caller)
    (mark mark' : Option Nat) (body : Value) (env : ScopeId) :
    (runBlock (evalForm call) entries body env).MatchesButContext
      (letForm (evalForm call) (.pair mark bindings (.pair mark' body .nil)) env) := by
  simp only [letForm, h.letBlock_eq, Run.ofOutcome, pure_bind, applyTo_block, runBlock, openBlock,
    bind_assoc]
  refine Run.MatchesButContext.within ?_ _
  refine (Run.MatchesButContext.refl _).bind fun _ => (Run.MatchesButContext.refl _).bind ?_
  intro scope
  have hblock := (evalForm_blockOfEntries call entries body scope).bind fun context =>
    .refl (pure context.value : Run Value)
  rwa [bind_assoc] at hblock

/-- A `let` is the block it stands for, but for the combinations that errors name. -/
theorem evalForm_let (h : BindingList bindings entries) (call : Caller)
    (mark mark' mark'' : Option Nat) (body : Value) (env : ScopeId) :
    (do return ⟨← runBlock (evalForm call) entries body env, env⟩ :
      Run Context).MatchesButContext
      (evalForm (evalForm call) (.pair mark (.symbol SpecialForm.letIn.name)
        (.pair mark' bindings (.pair mark'' body .nil))) env) := by
  have hcheck (whole : Value) :
      checkOperands .letIn whole (.pair mark' bindings (.pair mark'' body .nil)) = .ok () := rfl
  rw [evalForm]
  simp only [Value.symbol?, Option.bind_some, SpecialForm.named?_name, hcheck, Run.ofOutcome,
    pure_bind]
  exact ((letForm_matches h call mark' mark'' body env).bind fun _ => .refl _).within _

end Rewriting

/-! ## What comes to be bound -/

/-- The slot that a name defined by an expression in the scope comes to refer to, and the store
that it is in. -/
inductive Provides (evaluate : Caller) (scope : ScopeId) (st : Store) :
    Value → SlotId → Store → Prop
  | shared {source : String} {slot : SlotId} (h : st.slotOf? scope source = some slot) :
      Provides evaluate scope st (.symbol source) slot st
  | fresh {init : Value} {context : Context} {st' : Store} (hinit : init.symbol? = none)
      (h : evaluate init scope st = .ok context st') :
      Provides evaluate scope st init st'.slots.size (st'.newSlot context.value).2

/-- In this store and ever after, the names refer to a slot everywhere inside the scope and in the
bodies of closures that captured a scope inside it. -/
structure Store.Shows (st : Store) (scope : ScopeId) (names : List String) : Prop where
  inside : ∀ st', st.Grows st' → ∀ inner, scope ∈ st'.chain inner → ∀ name ∈ names,
    (st'.slotOf? inner name).isSome = true
  bodies : ∀ st', st.Grows st' → ∀ captured, scope ∈ st'.chain captured →
    ∀ params args inner st'', enterClosure params captured args st' = .ok inner st'' →
      ∀ name ∈ names, (st''.slotOf? inner name).isSome = true

/-- Evaluation only adds to a store. -/
def OnlyGrows (evaluate : Caller) : Prop :=
  ∀ e env (st : Store), st.Grows ((evaluate e env).leaves st)

/-- Wherever it is evaluated in the scope, an expression leaves a name of the scope as it was. -/
def KeepsName (evaluate : Caller) (scope : ScopeId) (name : String) (init : Value) : Prop :=
  ∀ st, (((evaluate init scope).leaves st).bindingsOf scope).find? name =
    (st.bindingsOf scope).find? name

/-- The scope is filled in the order of the entries. Each step shows the names of those before it,
and it binds its own name anew, there and in no other scope; so a name is left to its last entry,
unless the initializer of a later one defines it too. -/
structure FillsInOrder (evaluate : Caller) (scope : ScopeId) (entries : List (String × Value))
    (st : Store) : Prop where
  shows : ∀ before later st₁, entries = before ++ later →
    introduceAll evaluate scope before st = .ok () st₁ → st₁.Shows scope (before.map Prod.fst)
  takes : ∀ before name init rest st₁ st₂, entries = before ++ (name, init) :: rest →
    introduceAll evaluate scope before st = .ok () st₁ →
    introduce evaluate scope name init st₁ = .ok () st₂ →
    ∃ slot st', Provides evaluate scope st₁ init slot st' ∧ st₂.slots = st'.slots ∧
      st₂.slotOf? scope name = some slot ∧
      (∀ other, other ≠ scope → st₂.bindingsOf other = st'.bindingsOf other) ∧
      (name ∉ rest.map Prod.fst → (∀ entry ∈ rest, KeepsName evaluate scope name entry.2) →
        ∀ st₃, introduceAll evaluate scope rest st₂ = .ok () st₃ →
          st₃.slotOf? scope name = some slot)

/-- Nothing is asked of code. Whatever it does, stores only grow. -/
def Discipline.growing [Host] [Host.Lawful] : Discipline where
  Inv _ := True
  Env _ _ := True
  Closure _ _ _ _ := True
  Sym _ := True
  env_mono _ _ := trivial
  closure_mono _ _ := trivial
  content _ _ _ := trivial
  define_sym := trivial
  begin_sym := trivial
  lambda _ _ _ := trivial
  code {_ _ body _} _ := body.symbols_true
  enter _ _ := ⟨trivial, trivial⟩
  lookup {_ _ _ v} _ _ _ := v.closures_true
  bind _ _ _ := trivial
  share _ _ _ := trivial
  assign _ _ _ _ _ := trivial
  host key args st _ _ :=
    ⟨trivial, Host.Lawful.grows key args st, fun v _ _ => v.closures_true⟩

section Bound

variable {evaluate : Caller} {scope : ScopeId} {st st' st₁ : Store} {name : String} {init : Value}
  {slot : SlotId} {entries : List (String × Value)}

theorem grows_bindParameters {inner : ScopeId} {params : Value} {args : List Value}
    (h : bindParameters inner params args st = .ok () st') : st.Grows st' := by
  induction params generalizing args st with
  | pair mark p rest _ ih =>
    cases args with
    | nil =>
      rw [bindParameters_nil] at h
      cases h
      exact .refl _
    | cons v vs =>
      cases p with
      | symbol name =>
        obtain ⟨_, st₁, hbind, hrest⟩ := Run.exists_of_bind_ok h
        cases hbind
        exact (Grows.bind st inner name v).trans (ih hrest)
      | _ => cases h
  | symbol rest =>
    obtain ⟨list, st₁, hplace, hbind⟩ := Run.exists_of_bind_ok h
    have hplaced : st.Grows st₁ := by
      cases hplace
      exact .of_content rfl rfl
    cases hbind
    exact hplaced.trans (.bind st₁ inner rest list)
  | _ =>
    cases h
    exact .refl _

/-- The body of a closure is evaluated inside the scopes that the closure captured. -/
theorem mem_chain_of_enterClosure {params : Value} {captured inner : ScopeId} {args : List Value}
    (h : enterClosure params captured args st = .ok inner st') (hscope : scope < st.scopes.size)
    (hcaptured : scope ∈ st.chain captured) : st.Grows st' ∧ scope ∈ st'.chain inner := by
  have hlt := lt_of_mem_chain hscope hcaptured
  simp only [enterClosure] at h
  split at h
  · cases h
  · obtain ⟨new, st₁, hnew, hrest⟩ := Run.exists_of_bind_ok h
    obtain ⟨_, st₂, hparams, hreturn⟩ := Run.exists_of_bind_ok hrest
    cases hreturn
    cases hnew
    have hnew := Grows.newScope st (some captured)
    have hgrows : (st.newScope (some captured)).2.Grows st' := grows_bindParameters hparams
    have hinner : (st.newScope (some captured)).2.chain st.scopes.size =
        st.scopes.size :: st.chain captured := by
      rw [chain_eq, parentOf?_newScope, if_pos rfl]
      simp only [if_pos hlt, hnew.chain_eq hlt]
    refine ⟨hnew.trans hgrows, ?_⟩
    rw [hgrows.chain_eq (by simp), hinner]
    exact List.mem_cons_of_mem _ hcaptured

theorem Store.shows_of_bindsLocally {names : List String} (hscope : scope < st.scopes.size)
    (h : ∀ name ∈ names, st.bindsLocally scope name = true) : st.Shows scope names := by
  have hinside : ∀ st', st.Grows st' → ∀ inner, scope ∈ st'.chain inner → ∀ name ∈ names,
      (st'.slotOf? inner name).isSome = true := by
    intro st' hgrows inner hinner name hname
    rw [slotOf?, List.isSome_findSome?, List.any_eq_true]
    exact ⟨scope, hinner, hgrows.names scope name (h name hname)⟩
  refine ⟨hinside, fun st' hgrows captured hcaptured params args inner st'' hcall => ?_⟩
  obtain ⟨hgrows', hinner⟩ :=
    mem_chain_of_enterClosure hcall (Nat.lt_of_lt_of_le hscope hgrows.scopes) hcaptured
  exact hinside st'' (hgrows.trans hgrows') inner hinner

theorem provides_of_introduce (h : introduce evaluate scope name init st = .ok () st') :
    ∃ slot st₁, Provides evaluate scope st init slot st₁ ∧
      st' = st₁.bindSlot scope name slot := by
  cases hinit : init.symbol? with
  | some source =>
    cases init with
    | symbol source =>
      rw [introduce] at h
      obtain ⟨slot, st₁, hslot, hbind⟩ := Run.exists_of_bind_ok h
      cases hbind
      cases hlookup : st.slotOf? scope source with
      | none =>
        rw [Run.lookupSlot_of_unbound hlookup] at hslot
        cases hslot
      | some slot' =>
        rw [Run.lookupSlot_of_bound hlookup] at hslot
        cases hslot
        exact ⟨slot, st, .shared hlookup, rfl⟩
    | _ => cases hinit
  | none =>
    have hintroduce : introduce evaluate scope name init =
        (do Run.bind scope name (← evaluate init scope).value) := by
      cases init with
      | symbol source => cases hinit
      | _ => rfl
    rw [hintroduce] at h
    obtain ⟨context, st₁, hvalue, hbind⟩ := Run.exists_of_bind_ok h
    cases hbind
    exact ⟨_, _, .fresh hinit hvalue, rfl⟩

theorem Provides.grows (h : Provides evaluate scope st init slot st₁)
    (hevaluate : OnlyGrows evaluate) : st.Grows st₁ := by
  cases h with
  | shared hslot => exact .refl st
  | @fresh _ context st' hinit hvalue =>
    have hgrows := hevaluate init scope st
    simp only [Run.leaves, hvalue] at hgrows
    exact hgrows.trans (.newSlot st' context.value)

theorem Provides.keeps (h : Provides evaluate scope st init slot st₁)
    (hkeeps : KeepsName evaluate scope name init) :
    (st₁.bindingsOf scope).find? name = (st.bindingsOf scope).find? name := by
  cases h with
  | shared hslot => rfl
  | fresh hinit hvalue =>
    have hkept := hkeeps st
    simp only [Run.leaves, hvalue] at hkept
    exact hkept

/-- A step binds its own name to the slot it was given, whatever the name referred to before, and it
binds nothing in other scopes. -/
theorem find?_of_introduce (h : introduce evaluate scope name init st = .ok () st')
    (hevaluate : OnlyGrows evaluate) (hscope : scope < st.scopes.size) :
    ∃ slot st₁, Provides evaluate scope st init slot st₁ ∧ st'.slots = st₁.slots ∧
      (st'.bindingsOf scope).find? name = some slot ∧
      ∀ other, other ≠ scope → st'.bindingsOf other = st₁.bindingsOf other := by
  obtain ⟨slot, st₁, hprovides, rfl⟩ := provides_of_introduce h
  have hsize := Nat.lt_of_lt_of_le hscope (hprovides.grows hevaluate).scopes
  refine ⟨slot, st₁, hprovides, rfl, ?_, fun other hne => bindingsOf_bindSlot_of_ne hne.symm⟩
  rw [find?_bindSlot, if_pos ⟨rfl, hsize, rfl⟩]

theorem grows_introduce (h : introduce evaluate scope name init st = .ok () st')
    (hevaluate : OnlyGrows evaluate) : st.Grows st' := by
  obtain ⟨slot, st₁, hprovides, rfl⟩ := provides_of_introduce h
  exact (hprovides.grows hevaluate).trans (.bindSlot st₁ scope name slot)

/-- Filling a scope binds every name of the entries in it. -/
theorem bindsLocally_of_introduceAll (h : introduceAll evaluate scope entries st = .ok () st')
    (hevaluate : OnlyGrows evaluate) (hscope : scope < st.scopes.size) :
    st.Grows st' ∧ ∀ name ∈ entries.map Prod.fst, st'.bindsLocally scope name = true := by
  induction entries generalizing st with
  | nil =>
    cases h
    exact ⟨.refl _, by simp⟩
  | cons entry entries ih =>
    obtain ⟨name, init⟩ := entry
    rw [introduceAll] at h
    obtain ⟨_, st₁, hfirst, hrest⟩ := Run.exists_of_bind_ok h
    have hgrows := grows_introduce hfirst hevaluate
    obtain ⟨hgrows', hnames⟩ := ih hrest (Nat.lt_of_lt_of_le hscope hgrows.scopes)
    refine ⟨hgrows.trans hgrows', ?_⟩
    rw [List.map_cons, List.forall_mem_cons]
    refine ⟨hgrows'.names scope name ?_, hnames⟩
    obtain ⟨slot, -, -, -, hslot, -⟩ := find?_of_introduce hfirst hevaluate hscope
    rw [hslot]
    rfl

/-- Other names leave a name of the scope alone, unless their initializers define it. -/
theorem find?_of_introduceAll (h : introduceAll evaluate scope entries st = .ok () st')
    (hname : name ∉ entries.map Prod.fst)
    (hkeeps : ∀ entry ∈ entries, KeepsName evaluate scope name entry.2) :
    (st'.bindingsOf scope).find? name = (st.bindingsOf scope).find? name := by
  induction entries generalizing st with
  | nil =>
    cases h
    rfl
  | cons entry entries ih =>
    rw [List.map_cons, List.mem_cons, not_or] at hname
    rw [List.forall_mem_cons] at hkeeps
    rw [introduceAll] at h
    obtain ⟨_, st₁, hfirst, hrest⟩ := Run.exists_of_bind_ok h
    obtain ⟨slot, st₂, hprovides, rfl⟩ := provides_of_introduce hfirst
    rw [ih hrest hname.2 hkeeps.2, find?_bindSlot, if_neg fun h => hname.1 h.2.2.symm,
      hprovides.keeps hkeeps.1]

end Bound

theorem onlyGrows_evalWithin [Host] [Host.Lawful] (n : Nat) : OnlyGrows (evalWithin n) :=
  fun e env st =>
    (Discipline.keepsCalls_evalWithin n (D := .growing) st e env trivial trivial
      ⟨e.symbols_true, e.closures_true⟩).grows

theorem fillsInOrder {evaluate : Caller} (hevaluate : OnlyGrows evaluate) {scope : ScopeId}
    (entries : List (String × Value)) {st : Store} (hscope : scope < st.scopes.size) :
    FillsInOrder evaluate scope entries st := by
  refine ⟨fun before later st₁ _ hbefore => ?_, fun before name init rest st₁ st₂ _ hbefore hstep =>
    ?_⟩
  · obtain ⟨hgrows, hnames⟩ := bindsLocally_of_introduceAll hbefore hevaluate hscope
    exact shows_of_bindsLocally (Nat.lt_of_lt_of_le hscope hgrows.scopes) hnames
  · obtain ⟨hgrows, -⟩ := bindsLocally_of_introduceAll hbefore hevaluate hscope
    obtain ⟨slot, st', hprovides, hslots, hslot, hothers⟩ :=
      find?_of_introduce hstep hevaluate (Nat.lt_of_lt_of_le hscope hgrows.scopes)
    refine ⟨slot, st', hprovides, hslots, slotOf?_of_own hslot, hothers,
      fun hname hkeeps st₃ hrest => ?_⟩
    exact slotOf?_of_own ((find?_of_introduceAll hrest hname hkeeps).trans hslot)

theorem runBlock_of_ok {evaluate : Caller} {entries : List (String × Value)} {body : Value}
    {env : ScopeId} {st st₁ st₂ : Store} {context : Context}
    (hfilled : introduceAll evaluate st.scopes.size entries (st.insideBlock env) = .ok () st₁)
    (hbody : evaluate body st.scopes.size st₁ = .ok context st₂) :
    runBlock evaluate entries body env st = .ok context.value st₂ := by
  have hopen : openBlock env st = .ok st.scopes.size (st.insideBlock env) := rfl
  rw [runBlock, Machine.bind_of_ok hopen, Machine.bind_of_ok hfilled, Machine.bind_of_ok hbody]
  rfl

/-- Inside fewer calls than the limit leaves room for, a `let` opens one scope in its environment,
fills it in order and evaluates the body there, all of it one call further in. What it comes to is
the value and the store of that, in the environment it began in, and a failure has the same cause.
The scopes that were there before bind what they did, unless functions of the host bind in them. -/
theorem let_fills_one_scope [Host] [Host.Lawful] {depth : Nat} (hdepth : depth + 1 < callLimit)
    {bindings : Value} {entries : List (String × Value)} (h : BindingList bindings entries)
    (mark mark' mark'' : Option Nat) (body : Value) (env : ScopeId) (st : Store) :
    let evaluate := evalWithin (callLimit - (depth + 1))
    let form := Value.pair mark (.symbol SpecialForm.letIn.name)
      (.pair mark' bindings (.pair mark'' body .nil))
    SameButContext ((do return ⟨← runBlock evaluate entries body env, env⟩ : Run Context) st)
      (evalWithin (callLimit - depth) form env st) ∧
    (Host.Local →
      SameMaps (fun _ => False) st ((evalWithin (callLimit - depth) form env).leaves st)) ∧
    ∀ scope st', openBlock env st = .ok scope st' → FillsInOrder evaluate scope entries st' := by
  intro evaluate form
  obtain ⟨n, hn⟩ : ∃ n, callLimit - (depth + 1) = n + 1 := ⟨callLimit - depth - 2, by omega⟩
  have hroom : callLimit - depth = n + 2 := by omega
  have hevaluate : evaluate = evalForm (evalWithin n) := congrArg evalWithin hn
  rw [hevaluate, hroom, evalWithin, evalWithin]
  refine ⟨evalForm_let h (evalWithin n) mark mark' mark'' body env st,
    fun _ => Discipline.sameMaps_let (n + 1) mark _ env st, fun scope st' hopen => ?_⟩
  cases hopen
  exact fillsInOrder (onlyGrows_evalWithin (n + 1)) entries (by simp)

/-- `(let ((x 1) (x 2)) x)` -/
def letTwice : Value :=
  Value.ofList [.symbol SpecialForm.letIn.name,
    .ofList [.ofList [.symbol "x", .int 1], .ofList [.symbol "x", .int 2]], .symbol "x"]

section

attribute [local instance] Host.sample

theorem repeated_name_takes_the_last :
    let root := (({} : Store).newScope none).2
    0 + 1 < callLimit ∧ ∃ st, evalWithin (callLimit - 0) letTwice 0 root = .ok ⟨.int 2, 0⟩ st := by
  intro root
  have hdepth : 0 + 1 < callLimit := by decide
  have hbindings : BindingList (.ofList [.ofList [.symbol "x", .int 1],
      .ofList [.symbol "x", .int 2]]) [("x", .int 1), ("x", .int 2)] := .cons (.cons .nil)
  obtain ⟨hsame, -⟩ := let_fills_one_scope hdepth hbindings none none none (.symbol "x") 0 root
  have hroom : callLimit - (0 + 1) = (callLimit - 2) + 1 := by decide
  rw [hroom, evalWithin] at hsame
  obtain ⟨st, hfilled, hvalue⟩ : ∃ st, introduceAll (evalForm (evalWithin (callLimit - 2)))
      root.scopes.size [("x", .int 1), ("x", .int 2)] (root.insideBlock 0) = .ok () st ∧
      st.valueOf? root.scopes.size "x" = some (.int 2) :=
    ⟨_, rfl, by rw [valueOf?, slotOf?, chain_eq]; rfl⟩
  have hbody : evalForm (evalWithin (callLimit - 2)) (.symbol "x") root.scopes.size st =
      .ok ⟨.int 2, root.scopes.size⟩ st := by
    rw [evalForm]
    exact Machine.bind_of_ok (by rw [Run.lookup, hvalue])
  rw [Machine.bind_of_ok (runBlock_of_ok hfilled hbody)] at hsame
  generalize hend : evalWithin _ _ _ _ = r at hsame
  cases hsame
  exact ⟨hdepth, st, hend⟩

end

end SlotLisp
