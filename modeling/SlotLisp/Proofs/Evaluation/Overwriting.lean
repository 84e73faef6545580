import SlotLisp.Proofs.Evaluation.Hygiene

/-!
# Code without assignments

Only an assignment overwrites a slot, and code can only come from code: what runs is the expression,
the bodies of closures within reach, and what `let` and `defun` make of these. So where none of it
mentions `set!`, every slot keeps its content, and no closure that can be reached afterwards
mentions `set!` either.
-/

namespace SlotLisp

open Store

/-- A closure that has captured a scope in the region, and whose body has no other symbols than
these. -/
def Region.Runs (R : Region) (S : String → Prop) (_params body : Value) (scope : ScopeId) : Prop :=
  body.Symbols S ∧ R.scope scope

/-- A node in the region, where the bodies of closures have no other symbols than these. -/
def Region.HoldsCode (R : Region) (S : String → Prop) : Node → Prop
  | .scope scope => R.scope scope
  | .slot slot => R.slot slot
  | .value v => v.Closures (R.Runs S)

theorem Region.holds_of_runs {R : Region} {S : String → Prop} {v : Value}
    (h : v.Closures (R.Runs S)) : R.Holds (.value v) :=
  h.mono fun _ _ _ => And.right

/-- A value that is reached has only closures that are reached, with their code. -/
theorem Store.Reaches.runs {st : Store} {roots : List Node} {S : String → Prop}
    (hcode : ∀ mark params body scope,
      st.Reaches roots (.value (.closure mark params body scope)) → body.Symbols S)
    {v : Value} (h : st.Reaches roots (.value v)) :
    v.Closures ((Region.grownFrom st roots).Runs S) := by
  induction v with
  | pair mark a d iha ihd => exact ⟨iha (h.step .car), ihd (h.step .cdr)⟩
  | closure mark params body scope ihp ihb =>
    exact ⟨⟨hcode mark params body scope h, .inl (h.step .captured)⟩, ihp (h.step .params),
      ihb (h.step .body)⟩
  | _ => trivial

/-- The slots of `st₀` are as they were, and the region holds code of these symbols only. -/
structure Preserves (R : Region) (S : String → Prop) (st₀ st : Store) : Prop where
  confines : R.Confines st₀ st
  values : ∀ slot (v : Value), R.slot slot → st.slots[slot]? = some v → v.Closures (R.Runs S)
  contents : ∀ slot < st₀.slots.size, st.slots[slot]? = st₀.slots[slot]?

namespace Preserves

variable {R : Region} {S : String → Prop} {st₀ st st' : Store}

theorem content (h : Preserves R S st₀ st) (hscopes : st'.scopes = st.scopes)
    (hslots : st'.slots = st.slots) : Preserves R S st₀ st' :=
  ⟨h.confines.content hscopes hslots, hslots ▸ h.values, hslots ▸ h.contents⟩

theorem newScope (h : Preserves R S st₀ st) {parent : ScopeId} (hparent : R.scope parent) :
    Preserves R S st₀ (st.newScope (some parent)).2 :=
  ⟨h.confines.newScope hparent, h.values, h.contents⟩

theorem bindSlot (h : Preserves R S st₀ st) {scope : ScopeId} {slot : SlotId}
    (hscope : R.scope scope) (hslot : R.slot slot) (name : String) :
    Preserves R S st₀ (st.bindSlot scope name slot) :=
  ⟨h.confines.bindSlot hscope hslot name, h.values, h.contents⟩

theorem newSlot (h : Preserves R S st₀ st) {v : Value} (hv : v.Closures (R.Runs S)) :
    Preserves R S st₀ (st.newSlot v).2 := by
  refine ⟨h.confines.newSlot (Region.holds_of_runs hv), fun slot w hslot hw => ?_,
    fun slot hslot => ?_⟩
  · obtain rfl | hold := content_newSlot hw
    · exact hv
    · exact h.values slot w hslot hold
  · rw [content_newSlot_of_lt (Nat.lt_of_lt_of_le hslot h.confines.slots)]
    exact h.contents slot hslot

/-- What a node of the region reaches is in the region, with its code. -/
theorem reaches (h : Preserves R S st₀ st) {roots : List Node}
    (hroots : ∀ root ∈ roots, R.HoldsCode S root) {node : Node} (hnode : st.Reaches roots node) :
    R.HoldsCode S node := by
  obtain ⟨root, hroot, hpath⟩ := hnode
  induction hpath with
  | refl => exact hroots root hroot
  | tail _ hedge ih =>
    cases hedge with
    | parent hparent => exact h.confines.closed.parents _ _ ih hparent
    | binding hbinding => exact h.confines.closed.bindings _ _ _ ih hbinding
    | content hcontent => exact h.values _ _ ih hcontent
    | car => exact ih.1
    | cdr => exact ih.2
    | captured => exact ih.1.2
    | params => exact ih.2.1
    | body => exact ih.2.2

end Preserves

/-- Code runs in the region, which has all scopes and slots that `st₀` does not have, and assigns
nothing. -/
def Discipline.preserving [Host] [Host.Detached] (R : Region) (st₀ : Store)
    (hscopes : ∀ scope, st₀.scopes.size ≤ scope → R.scope scope)
    (hslots : ∀ slot, st₀.slots.size ≤ slot → R.slot slot) : Discipline where
  Inv := Preserves R (· ≠ SpecialForm.assign.name) st₀
  Env _ := R.scope
  Closure _ := R.Runs (· ≠ SpecialForm.assign.name)
  Sym name := name ≠ SpecialForm.assign.name
  env_mono _ henv := henv
  closure_mono _ hruns := hruns
  content h := h.content
  define_sym := by decide
  begin_sym := by decide
  lambda henv _ hbody := ⟨hbody, henv⟩
  code hruns := hruns.1
  enter h hruns := ⟨h.newScope hruns.2, hscopes _ h.confines.scopes⟩
  lookup h henv hv := by
    obtain ⟨slot, hslot, hcontent⟩ := Option.bind_eq_some_iff.1 hv
    exact h.values slot _ (h.confines.closed.slotOf? henv hslot) hcontent
  bind h henv hv := (h.newSlot hv).bindSlot henv (hslots _ h.confines.slots) _
  share h henv hslot := h.bindSlot henv (h.confines.closed.slotOf? henv hslot) _
  assign hsym := absurd rfl hsym
  host := Host.keeps_of_detached (fun h => h.content) fun _ hruns => hruns

/-- Evaluation overwrites no slot if neither the expression nor the body of a closure within reach
mentions `set!`, whether it succeeds or fails; and neither does then the body of a closure that the
environment or the result reaches afterwards. -/
theorem slots_survive_without_assignment [Host] [Host.Detached] {st : Store} {e : Value}
    {env : ScopeId}
    (he : e.Symbols (· ≠ SpecialForm.assign.name))
    (hcode : ∀ mark params body scope,
      st.Reaches [.scope env, .value e] (.value (.closure mark params body scope)) →
        body.Symbols (· ≠ SpecialForm.assign.name)) :
    (∀ slot < st.slots.size, ((eval e env).leaves st).slots[slot]? = st.slots[slot]?) ∧
    (∀ mark params body scope,
      ((eval e env).leaves st).Reaches [.scope env] (.value (.closure mark params body scope)) →
        body.Symbols (· ≠ SpecialForm.assign.name)) ∧
    ∀ context st', eval e env st = .ok context st' → ∀ mark params body scope,
      st'.Reaches [.scope env, .value context.value]
        (.value (.closure mark params body scope)) →
          body.Symbols (· ≠ SpecialForm.assign.name) := by
  have hscope : (Region.grownFrom st [.scope env, .value e]).scope env := .inl (.of_mem (by simp))
  have hexpr : e.Closures ((Region.grownFrom st [.scope env, .value e]).Runs
      (· ≠ SpecialForm.assign.name)) := (Reaches.of_mem (by simp)).runs hcode
  have hinit : Preserves (.grownFrom st [.scope env, .value e]) (· ≠ SpecialForm.assign.name)
      st st := by
    refine ⟨.refl (Region.closed_grownFrom st _), fun slot v hslot hv => ?_, fun _ _ => rfl⟩
    -- The region is what the roots reach and all that is made later, which is not there yet.
    obtain hslot | hslot := hslot
    · exact (hslot.step (.content hv)).runs hcode
    · rw [Array.getElem?_eq_none hslot] at hv
      cases hv
  obtain ⟨hinv, -, hresult⟩ := Discipline.keeps_eval e
    (D := .preserving (.grownFrom st [.scope env, .value e]) st (fun _ => .inr) fun _ => .inr)
    hinit hscope ⟨he, hexpr⟩
  refine ⟨hinv.contents, fun mark params body scope hreaches => ?_,
    fun context st' hrun mark params body scope hreaches => ?_⟩
  · refine (hinv.reaches ?_ hreaches).1.1
    rw [List.forall_mem_singleton]
    exact hscope
  · have hleaves : (eval e env).leaves st = st' := by simp [Run.leaves, hrun]
    rw [hleaves] at hinv
    have hvalue := (hresult context st' hrun).2
    refine (hinv.reaches ?_ hreaches).1.1
    rw [List.forall_mem_cons, List.forall_mem_singleton]
    exact ⟨hscope, hvalue⟩

section

attribute [local instance] Host.empty

/-- `(let ((a 1)) (f a))` leaves the function `f` in its slot. -/
theorem function_after_its_call :
    let e := Value.ofList [.symbol "let", Value.ofList [Value.ofList [.symbol "a", .int 1]],
      Value.ofList [.symbol "f", .symbol "a"]]
    ((eval e 0).leaves functionStore).slots[0]? = some identityFunction := by
  intro e
  have hidentity : identityFunction.Closures fun _ body _ =>
      body.Symbols (· ≠ SpecialForm.assign.name) := by
    simp [identityFunction, Value.ofList, Value.Closures, Value.Symbols, SpecialForm.name]
  have he : e.Symbols (· ≠ SpecialForm.assign.name) := by
    simp [e, Value.ofList, Value.Symbols, SpecialForm.name]
  refine (slots_survive_without_assignment he fun mark params body scope hreaches => ?_).1 0
    (by decide)
  refine hreaches.closure_code (P := fun _ body => body.Symbols (· ≠ SpecialForm.assign.name))
    (fun slot v hv => ?_) fun v hv => ?_
  · cases slot with
    | zero => exact Option.some.inj hv ▸ hidentity
    | succ slot => cases hv
  · obtain rfl : v = e := by simpa using hv
    simp [e, Value.ofList, Value.Closures]

end

end SlotLisp
