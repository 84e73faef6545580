import SlotLisp.Proofs.Evaluation.Coupling
import SlotLisp.Proofs.Evaluation.Isolation
import SlotLisp.Proofs.Store.Extra

/-!
# Hygiene

What a name is bound to does not matter to code in which it does not occur, and whose closures do
not contain it either. This holds of the names of the special forms too, although `let` and `defun`
are rewritten to code that mentions them.
-/

namespace SlotLisp

open Store

/-- A value that is reached may be called if the code of all closures that are reached may be. -/
theorem Store.Reaches.callable {st : Store} {roots : List Node} {S : String → Prop}
    (hcode : ∀ mark params body scope,
      st.Reaches roots (.value (.closure mark params body scope)) →
        params.Symbols S ∧ body.Symbols S)
    {v : Value} (h : st.Reaches roots (.value v)) :
    v.Closures (Callable (Region.grownFrom st roots).scope S) := by
  induction v with
  | pair mark a d iha ihd => exact ⟨iha (h.step .car), ihd (h.step .cdr)⟩
  | closure mark params body scope ihp ihb =>
    obtain ⟨hparams, hbody⟩ := hcode mark params body scope h
    exact ⟨⟨hparams, .plain hbody, .inl (h.step .captured)⟩, ihp (h.step .params),
      ihb (h.step .body)⟩
  | _ => trivial

/-- The one store has a binding besides, and code in the region does not use its name. -/
structure Spares (R : Region) (x : Extra) (st₀ st st' : Store) : Prop where
  confines : R.Confines st₀ st
  values : ∀ slot (v : Value), R.slot slot → st.slots[slot]? = some v →
    v.Closures (Callable R.scope (· ≠ x.name))
  extra : st.HasExtra x st'

theorem holds_of_callable {R : Region} {S : String → Prop} {v : Value}
    (h : v.Closures (Callable R.scope S)) : R.Holds (.value v) :=
  h.mono fun _ _ _ hcallable => hcallable.2.2

namespace Spares

variable {R : Region} {x : Extra} {st₀ st st' : Store}

theorem newSlot (h : Spares R x st₀ st st') {v : Value}
    (hv : v.Closures (Callable R.scope (· ≠ x.name))) :
    Spares R x st₀ (st.newSlot v).2 (st'.newSlot v).2 := by
  refine ⟨h.confines.newSlot (holds_of_callable hv), fun slot w hslot hw => ?_, h.extra.newSlot v⟩
  obtain rfl | hold := content_newSlot hw
  · exact hv
  · exact h.values slot w hslot hold

theorem bindSlot (h : Spares R x st₀ st st') {scope : ScopeId} {slot : SlotId}
    (hscope : R.scope scope) (hslot : R.slot slot) {name : String} (hname : name ≠ x.name) :
    Spares R x st₀ (st.bindSlot scope name slot) (st'.bindSlot scope name (x.shift slot)) :=
  ⟨h.confines.bindSlot hscope hslot name, h.values, h.extra.bindSlot hname scope slot⟩

theorem setSlot (h : Spares R x st₀ st st') {slot : SlotId} (hslot : R.slot slot) {v : Value}
    (hv : v.Closures (Callable R.scope (· ≠ x.name))) :
    Spares R x st₀ (st.setSlot slot v) (st'.setSlot (x.shift slot) v) := by
  refine ⟨h.confines.setSlot hslot (holds_of_callable hv), fun slot' w hslot' hw => ?_,
    h.extra.setSlot slot v⟩
  obtain rfl | hold := content_setSlot hw
  · exact hv
  · exact h.values slot' w hslot' hold

theorem bind (h : Spares R x st₀ st st') {scope : ScopeId} (hscope : R.scope scope)
    (hnew : R.slot st.slots.size) {name : String} (hname : name ≠ x.name) {v : Value}
    (hv : v.Closures (Callable R.scope (· ≠ x.name))) :
    Spares R x st₀ (st.bind scope name v) (st'.bind scope name v) :=
  ⟨(h.newSlot hv).confines.bindSlot hscope hnew name, (h.newSlot hv).values,
    h.extra.bind hname scope v⟩

theorem alike_share {env : ScopeId} (henv : R.scope env) {name source : String}
    (hname : name ≠ x.name) (hsource : source ≠ x.name) :
    Alike (Spares R x st₀) (do Run.bindSlot env name (← Run.lookupSlot env source))
      fun _ => True := by
  intro st st' h
  have hslot' := h.extra.slotOf? hsource env
  cases hslot : st.slotOf? env source with
  | none =>
    rw [hslot, Option.map_none] at hslot'
    rw [Machine.bind_of_error (Run.lookupSlot_of_unbound hslot),
      Machine.bind_of_error (Run.lookupSlot_of_unbound hslot')]
    exact .error h
  | some slot =>
    rw [hslot, Option.map_some] at hslot'
    rw [Machine.bind_of_ok (Run.lookupSlot_of_bound hslot),
      Machine.bind_of_ok (Run.lookupSlot_of_bound hslot')]
    exact .ok (h.bindSlot henv (h.confines.closed.slotOf? henv hslot) hname) trivial

end Spares

/-- Code runs in the region, which has all scopes and slots that `st₀` does not have, and does not
use the name of the binding that the other store has besides. -/
def Coupling.sparing [Host] [Host.Detached] (R : Region) (x : Extra) (st₀ : Store)
    (hscopes : ∀ scope, st₀.scopes.size ≤ scope → R.scope scope)
    (hslots : ∀ slot, st₀.slots.size ≤ slot → R.slot slot) : Coupling where
  Rel := Spares R x st₀
  Env := R.scope
  Name name := name ≠ x.name
  marks h := h.extra.marks
  marked marks h := ⟨h.confines.content rfl rfl, h.values, h.extra.marked marks⟩
  enter {scope} hscope st st' h := by
    change EndAlike _ _ (.ok st.scopes.size (st.newScope (some scope)).2)
      (.ok st'.scopes.size (st'.newScope (some scope)).2)
    rw [h.extra.scopes]
    exact .ok ⟨h.confines.newScope hscope, h.values, h.extra.newScope (some scope)⟩
      (hscopes _ h.confines.scopes)
  lookup {env name} henv hname st st' h := by
    rw [Run.lookup, Run.lookup, h.extra.valueOf? hname]
    cases hv : st.valueOf? env name with
    | none => exact .error h
    | some v =>
      obtain ⟨slot, hslot, hcontent⟩ := Option.bind_eq_some_iff.1 hv
      exact .ok h (h.values slot v (h.confines.closed.slotOf? henv hslot) hcontent)
  bind henv hname hv _ _ h := .ok (h.bind henv (hslots _ h.confines.slots) hname hv) trivial
  share henv hname hsource := Spares.alike_share henv hname hsource
  assign {env name v} henv hname hv st st' h := by
    rw [Run.assign, Run.assign, assign?, assign?, h.extra.slotOf? hname]
    cases hslot : st.slotOf? env name with
    | none => exact .error h
    | some slot => exact .ok (h.setSlot (h.confines.closed.slotOf? henv hslot) hv) trivial
  host {args} key hargs st st' h := by
    obtain ⟨marks, notes, hleaves⟩ := Host.leaves_eq_recording key args st
    have hspares : Spares R x st₀ (st.recording marks notes) (st'.recording marks notes) :=
      ⟨h.confines.content rfl rfl, h.values, (h.extra.marked marks).noted notes⟩
    rw [Host.Detached.acts key args h.extra.marks h.extra.notes]
    cases hcall : Host.call key args st with
    | ok v st₁ =>
      simp only [Run.leaves, hcall] at hleaves
      subst hleaves
      exact .ok hspares (Host.Detached.closures key hargs hcall)
    | error e st₁ =>
      simp only [Run.leaves, hcall] at hleaves
      subst hleaves
      exact .error hspares

/-- Evaluation ends alike whether or not a name that occurs neither in the expression nor in the
closures within reach has been bound before: with the same result or the same error, in stores that
differ in that binding only. -/
theorem unused_names_are_immaterial [Host] [Host.Detached] {st : Store} {held : List Value}
    (hst : Reachable st held) {e : Value} {env : ScopeId} {name : String}
    (he : e.Symbols (· ≠ name))
    (hcode : ∀ mark params body scope,
      st.Reaches [.scope env, .value e] (.value (.closure mark params body scope)) →
        params.Symbols (· ≠ name) ∧ body.Symbols (· ≠ name))
    {scope : ScopeId} (hscope : scope < st.scopes.size) (v : Value) :
    EndAlike (HasExtra (st.extraOf scope name v)) (fun _ => True) (eval e env st)
      (eval e env (st.bind scope name v)) := by
  have hroots : ∀ root ∈ [Node.scope env, .value e], st.Reaches [.scope env, .value e] root :=
    fun root hroot => .of_mem hroot
  have hregion := Region.closed_grownFrom st [.scope env, .value e]
  have hspares : Spares (.grownFrom st [.scope env, .value e]) (st.extraOf scope name v) st st
      (st.bind scope name v) := by
    refine ⟨.refl hregion, fun slot w hslot hw => ?_, .of_bind hst.sound.slots hscope name v⟩
    -- The region is what the roots reach and all that is made later, which is not there yet.
    obtain hslot | hslot := hslot
    · exact (hslot.step (.content hw)).callable hcode
    · rw [Array.getElem?_eq_none hslot] at hw
      cases hw
  have hend := Coupling.alike_eval (C := .sparing (.grownFrom st [.scope env, .value e])
    (st.extraOf scope name v) st (fun _ => .inr) fun _ => .inr)
    ⟨he, (hroots (.value e) (by simp)).callable hcode⟩ (.inl (hroots (.scope env) (by simp)))
    st (st.bind scope name v) hspares
  exact hend.mono (fun _ _ h => h.extra) fun _ _ => trivial

/-- The code of a closure within reach is that of a closure in a slot or in the roots. -/
theorem Store.Reaches.closure_code {st : Store} {roots : List Node} {P : Value → Value → Prop}
    (hslots : ∀ (slot : SlotId) (v : Value), st.slots[slot]? = some v →
      v.Closures fun params body _ => P params body)
    (hroots : ∀ v, .value v ∈ roots → v.Closures fun params body _ => P params body)
    {mark : Nat} {params body : Value} {scope : ScopeId}
    (h : st.Reaches roots (.value (.closure mark params body scope))) : P params body := by
  obtain ⟨root, hroot, hpath⟩ := h
  suffices hvalues : ∀ node, Relation.ReflTransGen st.Edge root node → ∀ v, node = .value v →
      v.Closures fun params body _ => P params body from (hvalues _ hpath _ rfl).1
  intro node hpath
  induction hpath with
  | refl => exact fun v hv => hroots v (hv ▸ hroot)
  | tail _ hedge ih =>
    intro v hv
    subst hv
    cases hedge with
    | content hcontent => exact hslots _ v hcontent
    | car => exact (ih _ rfl).1
    | cdr => exact (ih _ rfl).2
    | params => exact (ih _ rfl).2.1
    | body => exact (ih _ rfl).2.2

/-- A function that returns its argument. -/
def identityFunction : Value := .closure 0 (Value.ofList [.symbol "b"]) (.symbol "b") 0

/-- A root scope in which `f` is the function that returns its argument. -/
def functionStore : Store :=
  { (({} : Store).newScope none).2 with marks := 1 }.bind 0 "f" identityFunction

section

attribute [local instance] Host.empty

theorem reachable_functionStore : ∃ held, Reachable functionStore held := by
  have hroot : Reachable (({} : Store).newScope none).2 [] :=
    Reachable.empty.newScope fun _ h => by cases h
  have hlambda : Obtainable []
      (Value.ofList [.symbol "lambda", Value.ofList [.symbol "b"], .symbol "b"]) :=
    .cons (.atom trivial) (.cons (.cons (.atom trivial) (.atom trivial))
      (.cons (.atom trivial) (.atom trivial)))
  have hrun : eval (Value.ofList [.symbol "lambda", Value.ofList [.symbol "b"], .symbol "b"]) 0
      (({} : Store).newScope none).2 =
        .ok ⟨identityFunction, 0⟩ { (({} : Store).newScope none).2 with marks := 1 } := by
    rw [eval_eq_evalWithin]
    rfl
  exact ⟨_, ((hroot.make hlambda).success List.mem_cons_self (by decide) hrun).bind
    List.mem_cons_self (by decide) "f"⟩

/-- `(let ((a 1)) (f a))`, which is rewritten to code with a `define`, in a scope that binds
`define` to a number. -/
theorem let_beside_a_bound_define :
    let e := Value.ofList [.symbol "let", Value.ofList [Value.ofList [.symbol "a", .int 1]],
      Value.ofList [.symbol "f", .symbol "a"]]
    EndAlike (HasExtra (functionStore.extraOf 0 "define" (.int 7))) (fun _ => True)
      (eval e 0 functionStore) (eval e 0 (functionStore.bind 0 "define" (.int 7))) := by
  intro e
  obtain ⟨held, hst⟩ := reachable_functionStore
  have hidentity : identityFunction.Closures fun params body _ =>
      params.Symbols (· ≠ "define") ∧ body.Symbols (· ≠ "define") := by
    simp [identityFunction, Value.ofList, Value.Closures, Value.Symbols]
  refine unused_names_are_immaterial hst ?_ (fun mark params body scope hreaches => ?_)
    (by decide) (.int 7)
  · simp [e, Value.ofList, Value.Symbols]
  · refine hreaches.closure_code (P := fun params body => params.Symbols (· ≠ "define") ∧
      body.Symbols (· ≠ "define")) (fun slot v hv => ?_) fun v hv => ?_
    · cases slot with
      | zero => exact Option.some.inj hv ▸ hidentity
      | succ slot => cases hv
    · obtain rfl : v = e := by simpa using hv
      simp [e, Value.ofList, Value.Closures]

end

end SlotLisp
