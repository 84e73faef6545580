import Mathlib.Data.List.Forall2
import SlotLisp.Proofs.Evaluation.Reachable
import SlotLisp.Proofs.Machine.Conduct
import SlotLisp.Proofs.Store.BindAll
import SlotLisp.Proofs.Value.Parameters

/-!
# Calls of closures

At every moment of every run the parameters of every closure are distinct names. So a call with a
number of arguments that the closure takes goes on to the body, in a new scope that binds exactly
these names, each to a new slot; any other call changes nothing (`closure_calls_bind_exactly`).
-/

namespace SlotLisp

/-! ## Placing -/

/-- `w` is `v` with a mark for each pair that has none yet. -/
inductive Value.Placed : Value → Value → Prop
  | kept {v : Value} : (∀ a d, v ≠ .pair none a d) → Placed v v
  | marked {a a' d d' : Value} (mark : Nat) : Placed a a' → Placed d d' →
      Placed (.pair none a d) (.pair (some mark) a' d')

theorem Store.placeFrom_eq (mark : Nat) (elements : List Value) (v : Value) :
    ∃ w mark', v.Placed w ∧ Store.placeFrom mark elements v =
      elements.foldl (fun (rest, mark) element => (.pair (some mark) element rest, mark + 1))
        (w, mark') := by
  induction v generalizing mark elements with
  | pair m a d iha ihd =>
    cases m with
    | none =>
      obtain ⟨a', mark', ha, heqa⟩ := iha mark []
      obtain ⟨d', mark'', hd, heqd⟩ := ihd mark' (a' :: elements)
      refine ⟨.pair (some mark'') a' d', mark'' + 1, .marked mark'' ha hd, ?_⟩
      rw [Store.placeFrom, heqa]
      exact heqd
    | some m => exact ⟨_, mark, .kept (by simp), rfl⟩
  | _ => exact ⟨_, mark, .kept (by simp), rfl⟩

theorem Store.placed_placeFrom (mark : Nat) (v : Value) :
    v.Placed (Store.placeFrom mark [] v).1 := by
  obtain ⟨w, mark', hw, heq⟩ := Store.placeFrom_eq mark [] v
  rw [heq]
  exact hw

theorem Value.Placed.toList?_of_ofList {vs : List Value} {list : Value}
    (h : (Value.ofList vs).Placed list) :
    ∃ vs', list.toList? = some vs' ∧ List.Forall₂ Value.Placed vs vs' := by
  induction vs generalizing list with
  | nil =>
    cases h
    exact ⟨[], rfl, .nil⟩
  | cons v vs ih =>
    rw [Value.ofList, Value.ofListTail_cons] at h
    cases h with
    | kept hkept => exact absurd rfl (hkept _ _)
    | @marked _ v' _ d' mark hv hd =>
      obtain ⟨vs', hlist, hvs⟩ := ih hd
      refine ⟨v' :: vs', ?_, .cons hv hvs⟩
      rw [Value.toList?_pair, hlist, Option.map_some]

/-! ## Entering a closure -/

/-- What the parameters are bound to: the arguments in turn, and the rest of them as a list that is
placed in the store. With them come the marks in use afterwards. -/
def given (names : List String) (rest? : Option String) (args : List Value) (marks : Nat) :
    List (String × Value) × Nat :=
  match rest? with
  | none => (names.zip args, marks)
  | some rest =>
    let (list, marks) := Store.placeFrom marks [] (Value.ofList (args.drop names.length))
    (names.zip args ++ [(rest, list)], marks)

section

variable {params : Value} {names : List String} {rest? : Option String} {args : List Value}

theorem TakesArguments.le {required got : Nat} (h : TakesArguments required rest? got) :
    required ≤ got := by
  obtain rfl | h := h
  · exact Nat.le_refl _
  · exact h.1

theorem takesArguments_succ {required got : Nat} :
    TakesArguments (required + 1) rest? (got + 1) ↔ TakesArguments required rest? got := by
  simp [TakesArguments]

theorem given_names (hle : names.length ≤ args.length) (rest? : Option String) (marks : Nat) :
    (given names rest? args marks).1.map Prod.fst = names ++ rest?.toList := by
  cases rest? <;> simp [given, List.map_fst_zip hle]

theorem given_required {i : Nat} {name : String} {v : Value} (hname : names[i]? = some name)
    (hv : args[i]? = some v) (rest? : Option String) (marks : Nat) :
    (given names rest? args marks).1[i]? = some (name, v) := by
  have hzip : (names.zip args)[i]? = some (name, v) :=
    List.getElem?_zip_eq_some.2 ⟨hname, hv⟩
  cases rest? with
  | none => exact hzip
  | some rest =>
    have hi : i < (names.zip args).length := (List.getElem?_eq_some_iff.1 hzip).1
    exact (List.getElem?_append_left hi).trans hzip

/-- Behind the required parameters stands the list of the remaining arguments. -/
theorem given_rest (hle : names.length ≤ args.length) (rest : String) (marks : Nat) :
    ∃ list, (given names (some rest) args marks).1[names.length]? = some (rest, list) ∧
      (Value.ofList (args.drop names.length)).Placed list := by
  have hlength : (names.zip args).length = names.length := by simp [hle]
  refine ⟨_, ?_, Store.placed_placeFrom marks (Value.ofList (args.drop names.length))⟩
  rw [given, List.getElem?_append_right (Nat.le_of_eq hlength), hlength, Nat.sub_self]
  rfl

theorem bindParameters_eq (h : Parameters params names rest?)
    (hargs : TakesArguments names.length rest? args.length) (scope : ScopeId) (st : Store) :
    bindParameters scope params args st =
      .ok () (Store.bindAll { st with marks := (given names rest? args st.marks).2 } scope
        (given names rest? args st.marks).1) := by
  induction params generalizing names args st with
  | pair mark p rest _ ih =>
    obtain ⟨name, names, rfl, rfl⟩ := h.of_pair
    cases args with
    | nil => exact absurd hargs.le (by simp)
    | cons v args =>
      have hgiven : given (name :: names) rest? (v :: args) st.marks =
          ((name, v) :: (given names rest? args st.marks).1,
            (given names rest? args st.marks).2) := by
        cases rest? <;> rfl
      rw [bindParameters, hgiven]
      exact ih (Parameters.cons_iff.1 h).1 (takesArguments_succ.1 hargs) (st.bind scope name v)
  | nil =>
    obtain rfl := List.map_eq_nil_iff.1 h.required.symm
    cases rest? with
    | none =>
      obtain rfl : args = [] := List.length_eq_zero_iff.1 (by simpa [TakesArguments] using hargs)
      rfl
    | some rest => cases h.tail
  | symbol name =>
    obtain rfl := List.map_eq_nil_iff.1 h.required.symm
    cases rest? with
    | none => cases h.tail
    | some rest =>
      obtain rfl : name = rest := Value.symbol.inj h.tail
      rw [bindParameters]
      rfl
  | _ =>
    have htail := h.tail
    cases rest? <;> cases htail

/-- What a call of a closure has done to the store when it goes on to the body, in the scope that is
new: all parameters are bound there, each to a slot of its own, and nothing else has changed. -/
structure Entered (captured : ScopeId) (names : List String) (rest? : Option String)
    (args : List Value) (st st' : Store) : Prop where
  scopes : st'.scopes.size = st.scopes.size + 1
  parent : st'.parentOf? st.scopes.size = some captured
  required : ∀ i name v, names[i]? = some name → args[i]? = some v →
    st'.BindsTo st.scopes.size name (st.slots.size + i) v
  rest : ∀ name, rest? = some name → ∃ list vs,
    st'.BindsTo st.scopes.size name (st.slots.size + names.length) list ∧
      list.toList? = some vs ∧ List.Forall₂ Value.Placed (args.drop names.length) vs
  only : ∀ name, name ∉ names ++ rest?.toList →
    (st'.bindingsOf st.scopes.size).find? name = none
  unshared : ∀ scope scope' name name' slot, st.slots.size ≤ slot →
    (st'.bindingsOf scope).find? name = some slot →
    (st'.bindingsOf scope').find? name' = some slot → scope = scope' ∧ name = name'
  outside : ∀ scope < st.scopes.size,
    st'.bindingsOf scope = st.bindingsOf scope ∧ st'.parentOf? scope = st.parentOf? scope
  contents : ∀ slot < st.slots.size, st'.slots[slot]? = st.slots[slot]?

theorem entered_of_parameters {st : Store} (hst : st.Sound) (h : Parameters params names rest?)
    (hargs : TakesArguments names.length rest? args.length) (captured : ScopeId) (marks : Nat) :
    Entered captured names rest? args st
      (Store.addScope { st with marks } (some captured) (given names rest? args st.marks).1) := by
  have hnames := given_names hargs.le rest? st.marks
  have hdistinct : ((given names rest? args st.marks).1.map Prod.fst).Nodup := hnames ▸ h.distinct
  -- Nothing here looks at the marks.
  have htree : Store.IsTree { st with marks } := ⟨hst.parents, hst.slots⟩
  exact {
    scopes := Store.scopes_size_addScope
    parent := Store.parentOf?_addScope.trans (if_pos rfl)
    required := fun i name v hname hv =>
      Store.bindsTo_addScope hdistinct (given_required hname hv rest? st.marks)
    rest := by
      rintro name rfl
      obtain ⟨list, hlist, hplaced⟩ := given_rest hargs.le name st.marks
      obtain ⟨vs, hvs, hplaced⟩ := hplaced.toList?_of_ofList
      exact ⟨list, vs, Store.bindsTo_addScope hdistinct hlist, hvs, hplaced⟩
    only := fun name hname => Store.find?_addScope_of_not_mem (hnames ▸ hname)
    unshared := by
      intro scope scope' name name' slot hslot hbound hbound'
      obtain ⟨rfl, hname⟩ := Store.place_of_new_slot htree hdistinct hslot hbound
      obtain ⟨rfl, hname'⟩ := Store.place_of_new_slot htree hdistinct hslot hbound'
      exact ⟨rfl, Option.some.inj (hname.symm.trans hname')⟩
    outside := fun scope hlt => ⟨Store.bindingsOf_addScope_of_ne (Nat.ne_of_lt hlt),
      Store.parentOf?_addScope.trans (if_neg (Nat.ne_of_lt hlt))⟩
    contents := fun slot hlt => Store.content_addScope_of_lt hlt }

/-- The count of the arguments is checked before anything is bound. -/
theorem refuses_iff {required got : Nat} :
    (got < required || (!rest?.isSome && decide (required < got))) = true ↔
      ¬ TakesArguments required rest? got := by
  simp only [TakesArguments, Bool.or_eq_true, Bool.and_eq_true, Bool.not_eq_true',
    decide_eq_true_eq]
  cases rest?.isSome <;>
    simp only [reduceCtorEq, true_and, false_and, and_true, and_false, or_false] <;> omega

theorem Parameters.count_eq (h : Parameters params names rest?) :
    params.countFrom 0 = names.length := by
  rw [Value.countFrom_eq, h.required, List.length_map, Nat.zero_add]

theorem Parameters.hasRest_eq (h : Parameters params names rest?) :
    params.finalTail.symbol?.isSome = rest?.isSome := by
  rw [h.tail]
  cases rest? <;> rfl

theorem enterClosure_of_takes (h : Parameters params names rest?)
    (hargs : TakesArguments names.length rest? args.length) (captured : ScopeId) (st : Store) :
    enterClosure params captured args st = .ok st.scopes.size
      (Store.addScope { st with marks := (given names rest? args st.marks).2 } (some captured)
        (given names rest? args st.marks).1) := by
  have hrefuses := mt refuses_iff.1 (not_not.2 hargs)
  simp only [enterClosure, h.count_eq, h.hasRest_eq]
  rw [if_neg hrefuses]
  have hnew : Run.newScope (some captured) st =
      .ok st.scopes.size (st.newScope (some captured)).2 := rfl
  rw [Machine.bind_of_ok hnew]
  exact Machine.bind_of_ok (bindParameters_eq h hargs _ _)

theorem enterClosure_of_not_takes (h : Parameters params names rest?)
    (hargs : ¬ TakesArguments names.length rest? args.length) (captured : ScopeId) (st : Store) :
    enterClosure params captured args st =
      .error ⟨.closureArity names.length rest?.isSome args.length, none⟩ st := by
  simp only [enterClosure, h.count_eq, h.hasRest_eq]
  rw [if_pos (refuses_iff.2 hargs)]
  rfl

end

/-! ## Closures in runs -/

namespace Machine

def Control.values : Control → List Value
  | .form e _ => [e]
  | .done context => [context.value]
  | .failed _ => []

def Frame.values : Frame → List Value
  | .within form => [form]
  | .sequence rest => [rest]
  | .branch consequent alternative? => consequent :: alternative?.toList
  | .callee operands => [operands]
  | .argument f rest args => f :: rest :: args
  | .define .. | .assign .. | .body _ => []

/-- All values that a state has in hand or in its store. -/
def State.values (s : State) : List Value :=
  s.control.values ++ s.frames.flatMap Frame.values ++ s.store.slots.toList

variable [Host]

theorem Frame.Keeps.values {D : Discipline} {st : Store} {frame : Frame} (h : frame.Keeps D st) :
    ∀ v ∈ frame.values, D.Val st v := by
  cases frame with
  | within form => exact List.forall_mem_singleton.2 h
  | sequence rest | callee operands => exact List.forall_mem_singleton.2 h.2
  | branch consequent alternative? =>
    refine List.forall_mem_cons.2 ⟨h.1.2, fun alternative ha => ?_⟩
    exact (h.2 alternative (Option.mem_toList.1 ha)).2
  | argument f rest args =>
    exact List.forall_mem_cons.2 ⟨h.1, List.forall_mem_cons.2 ⟨h.2.1.2, h.2.2⟩⟩
  | _ => exact List.forall_mem_nil _

theorem State.Keeps.values [Host.Lawful] {s : State} (h : s.Keeps .sound) :
    ∀ v ∈ s.values, v.Closures s.store.Made := by
  have hcontrol := h.control
  intro v hv
  rw [State.values, List.mem_append, List.mem_append, List.mem_flatMap] at hv
  obtain (hv | ⟨frame, hframe, hv⟩) | hv := hv
  · cases hs : s.control <;> rw [hs] at hv hcontrol
    · exact List.mem_singleton.1 hv ▸ hcontrol.2.2
    · exact List.mem_singleton.1 hv ▸ hcontrol.2
    · cases hv
  · exact (h.frames frame hframe).values v hv
  · obtain ⟨slot, hslot⟩ := List.mem_iff_getElem?.1 hv
    rw [Array.getElem?_toList] at hslot
    exact h.inv.values slot v hslot

end Machine

/-- Closures made by `lambda` have parameters. -/
theorem hasParameters_of_made {st : Store} {v : Value} (h : v.Closures st.Made) :
    v.Closures fun params _ _ => HasParameters params := by
  refine h.mono fun params body scope hmade => ?_
  obtain ⟨-, operands, hcheck⟩ := hmade
  obtain ⟨names, rest?, hparams, -⟩ := checkParameters_eq_ok_iff.1 hcheck
  exact ⟨names, rest?, hparams⟩

/-- A call with as many arguments as the closure takes goes on to the body, with all of them bound;
any other call fails and leaves the store as it is. -/
def Store.BindsExactly [Host] (st : Store) : Prop :=
  ∀ params names rest?, Parameters params names rest? → ∀ mark body captured args,
    (TakesArguments names.length rest? args.length ↔
      ∃ st', Entered captured names rest? args st st' ∧
        ∀ call, applyTo call args (.closure mark params body captured) st =
          (do return (← call body st.scopes.size).value : Run Value) st') ∧
    (¬ TakesArguments names.length rest? args.length →
      ∀ call, applyTo call args (.closure mark params body captured) st =
        .error ⟨.closureArity names.length rest?.isSome args.length, none⟩ st)

theorem Store.Sound.bindsExactly [Host] {st : Store} (hst : st.Sound) : st.BindsExactly := by
  intro params names rest? hparams mark body captured args
  have hrefused (h : ¬ TakesArguments names.length rest? args.length) (call : Caller) :
      applyTo call args (.closure mark params body captured) st =
        .error ⟨.closureArity names.length rest?.isSome args.length, none⟩ st :=
    Machine.bind_of_error (enterClosure_of_not_takes hparams h captured st)
  refine ⟨⟨fun h => ?_, fun h => ?_⟩, hrefused⟩
  · exact ⟨_, entered_of_parameters hst hparams h captured _, fun call =>
      Machine.bind_of_ok (enterClosure_of_takes hparams h captured st)⟩
  · -- A call that goes on to the body succeeds when the body does.
    obtain ⟨st', -, hcall⟩ := h
    by_contra hnot
    have hbody := hcall fun _ scope => pure ⟨.nil, scope⟩
    rw [hrefused hnot] at hbody
    cases hbody

/-- In every reachable state and at every moment of a run from it, all closures have parameters, and
calls bind exactly these. The functions of the host may do what every host can. -/
theorem closure_calls_bind_exactly [Host] [Host.Lawful] {st : Store} {held : List Value}
    (hst : Reachable st held) :
    (∀ v ∈ held ++ st.slots.toList, v.Closures fun params _ _ => HasParameters params) ∧
    st.BindsExactly ∧
    ∀ e ∈ held, ∀ env < st.scopes.size, ∀ room s,
      Machine.Reaches ⟨.form e env, room, [], st⟩ s →
        (∀ v ∈ s.values, v.Closures fun params _ _ => HasParameters params) ∧
        s.store.BindsExactly := by
  refine ⟨fun v hv => ?_, hst.sound.bindsExactly, fun e he env henv room s hreaches => ?_⟩
  · rcases List.mem_append.1 hv with hv | hv
    · exact hasParameters_of_made (hst.sound_and_held.2 v hv)
    · obtain ⟨slot, hslot⟩ := List.mem_iff_getElem?.1 hv
      rw [Array.getElem?_toList] at hslot
      exact hasParameters_of_made (hst.sound.values slot v hslot)
  · have hinit : Machine.State.Keeps .sound ⟨.form e env, room, [], st⟩ :=
      ⟨hst.sound, ⟨henv, hst.expr he⟩, List.forall_mem_nil _⟩
    have hkeeps := Machine.keeps_of_reaches hinit hreaches
    exact ⟨fun v hv => hasParameters_of_made (hkeeps.values v hv), hkeeps.inv.bindsExactly⟩

section

attribute [local instance] Host.sample

/-- A call with three arguments of a closure that requires one and takes a rest. -/
theorem call_with_a_rest :
    ∃ st', Entered 0 ["a"] (some "b") [.int 1, .int 2, .int 3] (({} : Store).newScope none).2 st' ∧
      ∀ call, applyTo call [.int 1, .int 2, .int 3]
        (.closure 0 (.cons (.symbol "a") (.symbol "b")) (.symbol "b") 0)
        (({} : Store).newScope none).2 =
          (do return (← call (.symbol "b") 1).value : Run Value) st' := by
  have hroot : Reachable (({} : Store).newScope none).2 [] :=
    Reachable.empty.newScope fun _ h => by cases h
  have hparams : Parameters (.cons (.symbol "a") (.symbol "b")) ["a"] (some "b") :=
    ⟨rfl, rfl, by decide⟩
  have htakes : TakesArguments ["a"].length (some "b") [Value.int 1, .int 2, .int 3].length :=
    .inr ⟨by decide, rfl⟩
  exact ((closure_calls_bind_exactly hroot).2.1 _ _ _ hparams 0 (.symbol "b") 0 _).1.1 htakes

end

end SlotLisp
