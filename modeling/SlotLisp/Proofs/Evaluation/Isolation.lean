import Mathlib.Logic.Relation
import SlotLisp.Proofs.Evaluation.Locality

/-!
# Isolation

What a run can touch is what its environment and its expression reach: a scope reaches its parent
and the slots that it binds, a slot its content, a pair its parts, a closure its code and the scope
it captured. All else stays as it was. What the environment and the result reach afterwards was
reachable before or is new.
-/

namespace SlotLisp

inductive Node
  | scope (scope : ScopeId)
  | slot (slot : SlotId)
  | value (v : Value)

namespace Store

/-- One node refers to another one. -/
inductive Edge (st : Store) : Node → Node → Prop
  | parent {scope parent : ScopeId} :
      st.parentOf? scope = some parent → Edge st (.scope scope) (.scope parent)
  | binding {scope : ScopeId} {name : String} {slot : SlotId} :
      (st.bindingsOf scope).find? name = some slot → Edge st (.scope scope) (.slot slot)
  | content {slot : SlotId} {v : Value} :
      st.slots[slot]? = some v → Edge st (.slot slot) (.value v)
  | car {mark : Option Nat} {a d : Value} : Edge st (.value (.pair mark a d)) (.value a)
  | cdr {mark : Option Nat} {a d : Value} : Edge st (.value (.pair mark a d)) (.value d)
  | captured {mark : Nat} {params body : Value} {scope : ScopeId} :
      Edge st (.value (.closure mark params body scope)) (.scope scope)
  | params {mark : Nat} {params body : Value} {scope : ScopeId} :
      Edge st (.value (.closure mark params body scope)) (.value params)
  | body {mark : Nat} {params body : Value} {scope : ScopeId} :
      Edge st (.value (.closure mark params body scope)) (.value body)

/-- A node can be reached from one of the roots. -/
def Reaches (st : Store) (roots : List Node) (node : Node) : Prop :=
  ∃ root ∈ roots, Relation.ReflTransGen st.Edge root node

/-- The node is not in `st` but in `st'`. Only scopes and slots are in a store. -/
def New (st st' : Store) : Node → Prop
  | .scope scope => st.scopes.size ≤ scope ∧ scope < st'.scopes.size
  | .slot slot => st.slots.size ≤ slot ∧ slot < st'.slots.size
  | .value _ => False

variable {st st' st₀ : Store} {roots : List Node}

theorem Reaches.of_mem {root : Node} (h : root ∈ roots) : st.Reaches roots root :=
  ⟨root, h, .refl⟩

theorem Reaches.step {a b : Node} (h : st.Reaches roots a) (hedge : st.Edge a b) :
    st.Reaches roots b := by
  obtain ⟨root, hroot, hpath⟩ := h
  exact ⟨root, hroot, hpath.tail hedge⟩

/-- A value reaches the scopes that the closures in it have captured. -/
theorem Reaches.closures {v : Value} (h : st.Reaches roots (.value v)) :
    v.Closures fun _ _ scope => st.Reaches roots (.scope scope) := by
  induction v with
  | pair mark a d iha ihd => exact ⟨iha (h.step .car), ihd (h.step .cdr)⟩
  | closure mark params body scope ihp ihb =>
    exact ⟨h.step .captured, ihp (h.step .params), ihb (h.step .body)⟩
  | _ => trivial

end Store

open Store

/-! ## Regions -/

/-- A part of the scopes and slots. -/
structure Region where
  scope : ScopeId → Prop
  slot : SlotId → Prop

namespace Region

/-- A value is in a region when the scopes that its closures have captured are. -/
def Holds (R : Region) : Node → Prop
  | .scope scope => R.scope scope
  | .slot slot => R.slot slot
  | .value v => v.Closures fun _ _ scope => R.scope scope

/-- No edge leaves the region. -/
structure Closed (R : Region) (st : Store) : Prop where
  parents : ∀ scope parent, R.scope scope → st.parentOf? scope = some parent → R.scope parent
  bindings : ∀ scope name slot, R.scope scope →
    (st.bindingsOf scope).find? name = some slot → R.slot slot
  contents : ∀ slot (v : Value), R.slot slot → st.slots[slot]? = some v → R.Holds (.value v)

variable {R : Region} {st st' st₀ : Store}

theorem Closed.edge (h : R.Closed st) {a b : Node} (hedge : st.Edge a b) (ha : R.Holds a) :
    R.Holds b := by
  cases hedge with
  | parent hparent => exact h.parents _ _ ha hparent
  | binding hbinding => exact h.bindings _ _ _ ha hbinding
  | content hcontent => exact h.contents _ _ ha hcontent
  | car => exact ha.1
  | cdr => exact ha.2
  | captured => exact ha.1
  | params => exact ha.2.1
  | body => exact ha.2.2

theorem Closed.reaches (h : R.Closed st) {roots : List Node} (hroots : ∀ root ∈ roots, R.Holds root)
    {node : Node} (hnode : st.Reaches roots node) : R.Holds node := by
  obtain ⟨root, hroot, hpath⟩ := hnode
  induction hpath with
  | refl => exact hroots root hroot
  | tail _ hedge ih => exact h.edge hedge ih

theorem Closed.chain (h : R.Closed st) {scope : ScopeId} (hscope : R.scope scope) :
    ∀ s ∈ st.chain scope, R.scope s := by
  induction scope using Nat.strongRecOn with
  | ind scope ih =>
    intro s hs
    rw [Store.chain_eq, List.mem_cons] at hs
    obtain rfl | hs := hs
    · exact hscope
    · split at hs
      · rename_i parent hparent
        split at hs
        · rename_i hlt
          exact ih parent hlt (h.parents scope parent hscope hparent) s hs
        · cases hs
      · cases hs

theorem Closed.slotOf? (h : R.Closed st) {scope : ScopeId} (hscope : R.scope scope)
    {name : String} {slot : SlotId} (hslot : st.slotOf? scope name = some slot) :
    R.slot slot := by
  obtain ⟨s, hs, hbinding⟩ := Store.mem_slots_of_slotOf? hslot
  exact h.bindings s name slot (h.chain hscope s hs) hbinding

/-- The scopes and slots of a sound store. -/
def of (st : Store) : Region where
  scope scope := scope < st.scopes.size
  slot slot := slot < st.slots.size

theorem closed_of_sound (h : st.Sound) : (of st).Closed st where
  parents scope parent hscope hparent := Nat.lt_trans (h.parents scope parent hparent) hscope
  bindings scope name slot _ hbinding := h.slots scope name slot hbinding
  contents slot v _ hcontent := (h.values slot v hcontent).mono fun _ _ _ hmade => hmade.1

/-- What the roots reach, and all that `st` does not have yet. -/
def grownFrom (st : Store) (roots : List Node) : Region where
  scope scope := st.Reaches roots (.scope scope) ∨ st.scopes.size ≤ scope
  slot slot := st.Reaches roots (.slot slot) ∨ st.slots.size ≤ slot

theorem closed_grownFrom (st : Store) (roots : List Node) : (grownFrom st roots).Closed st where
  parents scope parent hscope hparent := by
    obtain hscope | hscope := hscope
    · exact .inl (hscope.step (.parent hparent))
    · rw [Store.parentOf?_of_size_le hscope] at hparent
      cases hparent
  bindings scope name slot hscope hbinding := by
    obtain hscope | hscope := hscope
    · exact .inl (hscope.step (.binding hbinding))
    · rw [Store.bindingsOf_of_size_le hscope] at hbinding
      cases hbinding
  contents slot v hslot hcontent := by
    obtain hslot | hslot := hslot
    · exact (hslot.step (.content hcontent)).closures.mono fun _ _ _ => .inl
    · rw [Array.getElem?_eq_none hslot] at hcontent
      cases hcontent

theorem holds_of_reaches {roots : List Node} {node : Node} (h : st.Reaches roots node) :
    (grownFrom st roots).Holds node := by
  cases node with
  | scope scope => exact .inl h
  | slot slot => exact .inl h
  | value v => exact h.closures.mono fun _ _ _ => .inl

/-! ## Confinement -/

/-- From `st₀` to `st` nothing outside the region has changed, and no edge leaves it. -/
structure Confines (R : Region) (st₀ st : Store) : Prop where
  closed : R.Closed st
  maps : SameMaps R.scope st₀ st
  contents : ∀ slot < st₀.slots.size, ¬ R.slot slot → st.slots[slot]? = st₀.slots[slot]?
  scopes : st₀.scopes.size ≤ st.scopes.size
  slots : st₀.slots.size ≤ st.slots.size

namespace Confines

theorem refl (h : R.Closed st) : R.Confines st st :=
  ⟨h, fun _ _ _ => rfl, fun _ _ _ => rfl, Nat.le_refl _, Nat.le_refl _⟩

theorem content (h : R.Confines st₀ st) (hscopes : st'.scopes = st.scopes)
    (hslots : st'.slots = st.slots) : R.Confines st₀ st' := by
  have hparent := parentOf?_congr hscopes
  have hbindings := bindingsOf_congr hscopes
  refine ⟨⟨hparent ▸ h.closed.parents, hbindings ▸ h.closed.bindings, hslots ▸ h.closed.contents⟩,
    fun scope hscope hout => ?_, hslots ▸ h.contents, hscopes ▸ h.scopes, hslots ▸ h.slots⟩
  rw [hbindings, h.maps scope hscope hout]

theorem newScope (h : R.Confines st₀ st) {parent : ScopeId} (hparent : R.scope parent) :
    R.Confines st₀ (st.newScope (some parent)).2 := by
  refine ⟨⟨fun scope parent' hscope hp => ?_, fun scope name slot hscope hslot => ?_,
    h.closed.contents⟩, h.maps.newScope (some parent), h.contents,
    Nat.le_trans h.scopes (Grows.newScope st (some parent)).scopes, h.slots⟩
  · rw [parentOf?_newScope] at hp
    split at hp
    · obtain rfl := Option.some.inj hp
      exact hparent
    · exact h.closed.parents scope parent' hscope hp
  · rw [bindingsOf_newScope] at hslot
    exact h.closed.bindings scope name slot hscope hslot

theorem bindSlot (h : R.Confines st₀ st) {scope : ScopeId} {slot : SlotId}
    (hscope : R.scope scope) (hslot : R.slot slot) (name : String) :
    R.Confines st₀ (st.bindSlot scope name slot) := by
  refine ⟨⟨fun other parent hother hp => ?_, fun other name' slot' hother hbinding => ?_,
    h.closed.contents⟩, h.maps.bindSlot (.inl hscope) name slot, h.contents,
    Nat.le_trans h.scopes (Grows.bindSlot st scope name slot).scopes, h.slots⟩
  · rw [parentOf?_bindSlot] at hp
    exact h.closed.parents other parent hother hp
  · rw [find?_bindSlot] at hbinding
    split at hbinding
    · obtain rfl := Option.some.inj hbinding
      exact hslot
    · exact h.closed.bindings other name' slot' hother hbinding

theorem newSlot (h : R.Confines st₀ st) {v : Value} (hv : R.Holds (.value v)) :
    R.Confines st₀ (st.newSlot v).2 := by
  refine ⟨⟨h.closed.parents, h.closed.bindings, fun slot w hslot hw => ?_⟩, h.maps,
    fun slot hslot hout => ?_, h.scopes, Nat.le_trans h.slots (Grows.newSlot st v).slots⟩
  · obtain rfl | hold := content_newSlot hw
    · exact hv
    · exact h.closed.contents slot w hslot hold
  · rw [content_newSlot_of_lt (Nat.lt_of_lt_of_le hslot h.slots)]
    exact h.contents slot hslot hout

theorem setSlot (h : R.Confines st₀ st) {slot : SlotId} (hslot : R.slot slot) {v : Value}
    (hv : R.Holds (.value v)) : R.Confines st₀ (st.setSlot slot v) := by
  have hsize : (st.setSlot slot v).slots.size = st.slots.size := by simp [Store.setSlot]
  refine ⟨⟨h.closed.parents, h.closed.bindings, fun slot' w hslot' hw => ?_⟩, h.maps,
    fun slot' hlt hout => ?_, h.scopes, hsize ▸ h.slots⟩
  · obtain rfl | hold := content_setSlot hw
    · exact hv
    · exact h.closed.contents slot' w hslot' hold
  · have hne : slot ≠ slot' := by
      rintro rfl
      exact hout hslot
    rw [content_setSlot_of_ne hne]
    exact h.contents slot' hlt hout

end Confines

end Region

/-- Code runs in the region, which has all scopes and slots that `st₀` does not have. -/
def Discipline.confined [Host] [Host.Detached] (R : Region) (st₀ : Store)
    (hscopes : ∀ scope, st₀.scopes.size ≤ scope → R.scope scope)
    (hslots : ∀ slot, st₀.slots.size ≤ slot → R.slot slot) : Discipline where
  Inv := R.Confines st₀
  Env _ := R.scope
  Closure _ _ _ := R.scope
  Sym _ := True
  env_mono _ henv := henv
  closure_mono _ hscope := hscope
  content h := h.content
  define_sym := trivial
  begin_sym := trivial
  lambda henv _ _ := henv
  code {_ _ body _} _ := body.symbols_true
  enter h hscope := ⟨h.newScope hscope, hscopes _ h.scopes⟩
  lookup h henv hv := by
    obtain ⟨slot, hslot, hcontent⟩ := Option.bind_eq_some_iff.1 hv
    exact h.closed.contents slot _ (h.closed.slotOf? henv hslot) hcontent
  bind h henv hv := (h.newSlot hv).bindSlot henv (hslots _ h.slots) _
  share h henv hslot := h.bindSlot henv (h.closed.slotOf? henv hslot) _
  assign _ h henv hv hassign := by
    obtain ⟨slot, hslot, rfl⟩ := Option.map_eq_some_iff.1 hassign
    exact h.setSlot (h.closed.slotOf? henv hslot) hv
  host := Host.keeps_of_detached (fun h => h.content) fun _ hscope => hscope

/-! ## Isolation -/

namespace Store

/-- From `st` to `st'` the scopes and slots that the roots do not reach have not changed. -/
structure Isolates (roots : List Node) (st st' : Store) : Prop where
  maps : ∀ scope < st.scopes.size, ¬ st.Reaches roots (.scope scope) →
    st'.bindingsOf scope = st.bindingsOf scope
  parents : ∀ scope < st.scopes.size, st'.parentOf? scope = st.parentOf? scope
  contents : ∀ slot < st.slots.size, ¬ st.Reaches roots (.slot slot) →
    st'.slots[slot]? = st.slots[slot]?

/-- The scopes and slots that `root` reaches in `st'` are new or were reached by the roots. -/
def Acquires (roots : List Node) (st st' : Store) (root : Node) : Prop :=
  ∀ node, (∀ v, node ≠ .value v) → st'.Reaches [root] node →
    st.Reaches roots node ∨ st.New st' node

variable {st st' : Store} {roots : List Node}

theorem isolates_of_confines (hconfines : (Region.grownFrom st roots).Confines st st')
    (hgrows : st.Grows st') : Isolates roots st st' := by
  refine ⟨fun scope hscope hout => hconfines.maps scope hscope ?_, hgrows.parents,
    fun slot hslot hout => hconfines.contents slot hslot ?_⟩
  · exact not_or.2 ⟨hout, Nat.not_le.2 hscope⟩
  · exact not_or.2 ⟨hout, Nat.not_le.2 hslot⟩

theorem acquires_of_confines (hconfines : (Region.grownFrom st roots).Confines st st')
    (hsound : st'.Sound) {root : Node} (hroot : (Region.grownFrom st roots).Holds root)
    (hroot' : (Region.of st').Holds root) : Acquires roots st st' root := by
  intro node hnode hreaches
  have hgrown : (Region.grownFrom st roots).Holds node :=
    hconfines.closed.reaches (by simpa using hroot) hreaches
  have hin : (Region.of st').Holds node :=
    (Region.closed_of_sound hsound).reaches (by simpa using hroot') hreaches
  cases node with
  | scope scope => exact hgrown.imp_right fun hle => ⟨hle, hin⟩
  | slot slot => exact hgrown.imp_right fun hle => ⟨hle, hin⟩
  | value v => exact absurd rfl (hnode v)

end Store

/-- Evaluation leaves all that neither its environment nor its expression reaches as it was, whether
it succeeds or fails; and what the environment and the result reach afterwards is new or was reached
before. -/
theorem evaluation_is_isolated [Host] [Host.Detached] {st : Store} {held : List Value}
    (hst : Reachable st held) {e : Value} (he : e ∈ held) {env : ScopeId}
    (henv : env < st.scopes.size) :
    Isolates [.scope env, .value e] st ((eval e env).leaves st) ∧
    Acquires [.scope env, .value e] st ((eval e env).leaves st) (.scope env) ∧
    ∀ context st', eval e env st = .ok context st' →
      Acquires [.scope env, .value e] st st' (.value context.value) := by
  have hroots : ∀ root ∈ [Node.scope env, .value e],
      (Region.grownFrom st [.scope env, .value e]).Holds root :=
    fun root hroot => Region.holds_of_reaches (.of_mem hroot)
  have hscope := hroots (.scope env) (by simp)
  have hexpr := hroots (.value e) (by simp)
  have hinit := Region.Confines.refl (Region.closed_grownFrom st [.scope env, .value e])
  obtain ⟨hconfines, hgrows, hresult⟩ := Discipline.keeps_eval e
    (D := .confined (.grownFrom st [.scope env, .value e]) st (fun _ => .inr) fun _ => .inr)
    hinit hscope ⟨e.symbols_true, hexpr⟩
  obtain ⟨hsound, -, hresult'⟩ := Discipline.keeps_eval e hst.sound henv (hst.expr he)
  refine ⟨isolates_of_confines hconfines hgrows, acquires_of_confines hconfines hsound hscope
    (Nat.lt_of_lt_of_le henv hgrows.scopes), fun context st' hrun => ?_⟩
  have hleaves : (eval e env).leaves st = st' := by simp [Run.leaves, hrun]
  rw [hleaves] at hconfines hsound
  have hmade : context.value.Closures st'.Made := (hresult' context st' hrun).2
  exact acquires_of_confines hconfines hsound (hresult context st' hrun).2
    (hmade.mono fun _ _ _ => And.left)

section

attribute [local instance] Host.empty

/-- A definition in one of two root scopes, seen from the other one. -/
theorem other_root_after_definition :
    ((eval (Value.ofList [.symbol "define", .symbol "a", .int 2]) 1).leaves
      ((({} : Store).newScope none).2.newScope none).2).bindingsOf 0 = {} := by
  have hroots : Reachable ((({} : Store).newScope none).2.newScope none).2 [] :=
    (Reachable.empty.newScope fun _ h => by cases h).newScope fun _ h => by cases h
  have hexpr : Obtainable [] (Value.ofList [.symbol "define", .symbol "a", .int 2]) :=
    .cons (.atom trivial) (.cons (.atom trivial) (.cons (.atom trivial) (.atom trivial)))
  have hscope : (1 : ScopeId) < ((({} : Store).newScope none).2.newScope none).2.scopes.size := by
    decide
  have hisolated := (evaluation_is_isolated (hroots.make hexpr) List.mem_cons_self hscope).1
  apply hisolated.maps 0 (by decide)
  intro hreaches
  have hclosed : Region.Closed ⟨(· = 1), fun _ => False⟩
      ((({} : Store).newScope none).2.newScope none).2 := by
    refine ⟨fun scope parent hscope hparent => ?_, fun scope name slot hscope hbinding => ?_,
      fun _ _ hslot => hslot.elim⟩
    · obtain rfl : scope = 1 := hscope
      cases hparent
    · obtain rfl : scope = 1 := hscope
      cases hbinding
  have hzero : (0 : ScopeId) = 1 := hclosed.reaches (by simp [Region.Holds, Value.ofList,
    Value.ofListTail, Value.ofReversed, Value.Closures]) hreaches
  cases hzero

end

end SlotLisp
