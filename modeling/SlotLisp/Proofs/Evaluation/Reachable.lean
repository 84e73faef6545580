import SlotLisp.Proofs.Evaluation.Discipline

/-!
# Reachable states

`Reachable` is every state that a host can bring about: it makes scopes and slots, binds and reads
them, composes values from those in its hands, and evaluates expressions. Every reachable store is
`Sound`: parents, slots and captured scopes exist, and closures are as `lambda` makes them.
-/

namespace SlotLisp

namespace Store

/-- What is referred to is there: parents come before their children, names refer to slots, and the
closures in slots were made by `lambda` in a scope of the store. -/
structure Sound (st : Store) : Prop where
  parents : ∀ scope parent, st.parentOf? scope = some parent → parent < scope
  slots : ∀ scope name slot, (st.bindingsOf scope).find? name = some slot → slot < st.slots.size
  values : ∀ (slot : SlotId) (v : Value), st.slots[slot]? = some v → v.Closures st.Made

variable {st st' : Store}

/-- A visible name is bound in some scope on the way outwards. -/
theorem mem_slots_of_slotOf? {scope : ScopeId} {name : String} {slot : SlotId}
    (h : st.slotOf? scope name = some slot) :
    ∃ s ∈ st.chain scope, (st.bindingsOf s).find? name = some slot :=
  List.exists_of_findSome?_eq_some h

namespace Sound

theorem isTree (h : st.Sound) : st.IsTree := ⟨h.parents, h.slots⟩

theorem empty : Sound {} := by
  refine ⟨IsTree.empty.parents, IsTree.empty.slots, fun slot v h => ?_⟩
  simp at h

theorem slot_lt (h : st.Sound) {scope : ScopeId} {name : String} {slot : SlotId}
    (hslot : st.slotOf? scope name = some slot) : slot < st.slots.size :=
  h.isTree.slot_lt hslot

/-- A new scope is empty, so only its parent matters. -/
theorem newScope (h : st.Sound) {parent? : Option ScopeId}
    (hparent : ∀ parent, parent? = some parent → parent < st.scopes.size) :
    (st.newScope parent?).2.Sound := by
  have htree := h.isTree.newScope hparent
  refine ⟨htree.parents, htree.slots, fun slot v hv => ?_⟩
  exact closures_made_mono (.newScope st parent?) (h.values slot v hv)

theorem newSlot (h : st.Sound) {v : Value} (hv : v.Closures st.Made) :
    (st.newSlot v).2.Sound := by
  have hgrows := Grows.newSlot st v
  have htree := h.isTree.newSlot v
  refine ⟨htree.parents, htree.slots, fun slot w hw => ?_⟩
  obtain rfl | hold := content_newSlot hw
  · exact closures_made_mono hgrows hv
  · exact closures_made_mono hgrows (h.values slot w hold)

theorem bindSlot (h : st.Sound) {slot : SlotId} (hslot : slot < st.slots.size) (scope : ScopeId)
    (name : String) : (st.bindSlot scope name slot).Sound := by
  have htree := h.isTree.bindSlot hslot scope name
  refine ⟨htree.parents, htree.slots, fun slot' v hv => ?_⟩
  exact closures_made_mono (.bindSlot st scope name slot) (h.values slot' v hv)

theorem bind (h : st.Sound) {v : Value} (hv : v.Closures st.Made) (scope : ScopeId)
    (name : String) : (st.bind scope name v).Sound := by
  refine (h.newSlot hv).bindSlot ?_ scope name
  simp [Store.newSlot]

theorem setSlot (h : st.Sound) {v : Value} (hv : v.Closures st.Made) (slot : SlotId) :
    (st.setSlot slot v).Sound := by
  have htree := h.isTree.setSlot slot v
  refine ⟨htree.parents, htree.slots, fun slot' w hw => ?_⟩
  obtain rfl | hold := content_setSlot hw
  · exact hv
  · exact h.values slot' w hold

/-- Marks and notes do not matter. -/
theorem content (h : st.Sound) (hscopes : st'.scopes = st.scopes) (hslots : st'.slots = st.slots) :
    st'.Sound := by
  refine ⟨parentOf?_congr hscopes ▸ h.parents, bindingsOf_congr hscopes ▸ hslots ▸ h.slots,
    fun slot v hv => ?_⟩
  rw [hslots] at hv
  exact closures_made_mono (.of_content hscopes hslots) (h.values slot v hv)

end Sound

end Store

section

variable [Host]

/-- A host keeps the stores sound, because only `lambda` makes closures. -/
theorem Host.keeps_sound [Host.Lawful] : Host.Keeps Store.Sound Store.Made := by
  intro key args st hst hargs
  have hgrows := Lawful.grows key args st
  have htree := Lawful.tree key args hst.isTree
  obtain ⟨hslots, hresult⟩ := Lawful.closures key (fun _ _ _ hmade => hmade)
    (fun v hv => Store.closures_made_mono hgrows (hargs v hv))
    fun slot v hv => Store.closures_made_mono hgrows (hst.values slot v hv)
  refine ⟨⟨htree.parents, htree.slots, hslots⟩, hgrows, fun v st' hcall => ?_⟩
  simp only [Run.leaves, hcall] at hresult
  exact hresult v st' rfl

/-- Code may run in every scope of a sound store. -/
def Discipline.sound [Host.Lawful] : Discipline where
  Inv := Store.Sound
  Env st scope := scope < st.scopes.size
  Closure := Store.Made
  Sym _ := True
  env_mono h henv := Nat.lt_of_lt_of_le henv h.scopes
  closure_mono h hmade := hmade.mono h
  content h hscopes hslots := h.content hscopes hslots
  define_sym := trivial
  begin_sym := trivial
  lambda henv hcheck _ := ⟨henv, _, hcheck⟩
  code {_ _ body _} _ := body.symbols_true
  enter {st _ _ scope} h hmade := by
    refine ⟨h.newScope fun parent hparent => ?_, by simp⟩
    obtain rfl := Option.some.inj hparent
    exact hmade.1
  lookup h _ hv := by
    obtain ⟨slot, -, hslot⟩ := Option.bind_eq_some_iff.1 hv
    exact h.values slot _ hslot
  bind h _ hv := h.bind hv _ _
  share h _ hslot := h.bindSlot (h.slot_lt hslot) _ _
  assign _ h _ hv hassign := by
    obtain ⟨slot, -, rfl⟩ := Option.map_eq_some_iff.1 hassign
    exact h.setSlot hv slot
  host := Host.keeps_sound

end

/-! ## What a host does -/

/-- The values that a host can make of those in its hands. Only `lambda` makes closures. -/
inductive Obtainable (held : List Value) : Value → Prop
  | held {v : Value} : v ∈ held → Obtainable held v
  | atom {v : Value} : v.IsAtom → Obtainable held v
  | cons {a d : Value} : Obtainable held a → Obtainable held d → Obtainable held (.cons a d)
  | car {mark : Option Nat} {a d : Value} : Obtainable held (.pair mark a d) → Obtainable held a
  | cdr {mark : Option Nat} {a d : Value} : Obtainable held (.pair mark a d) → Obtainable held d
  | params {mark : Nat} {params body : Value} {scope : ScopeId} :
      Obtainable held (.closure mark params body scope) → Obtainable held params
  | body {mark : Nat} {params body : Value} {scope : ScopeId} :
      Obtainable held (.closure mark params body scope) → Obtainable held body

/-- Whatever holds of the closures in the hands of a host holds of those in values made of them. -/
theorem Obtainable.closures {C : Value → Value → ScopeId → Prop} {held : List Value} {v : Value}
    (h : Obtainable held v) (hheld : ∀ w ∈ held, w.Closures C) : v.Closures C := by
  induction h with
  | held hmem => exact hheld _ hmem
  | atom hatom => exact Value.closures_of_isAtom hatom
  | cons _ _ iha ihd => exact ⟨iha, ihd⟩
  | car _ ih => exact ih.1
  | cdr _ ih => exact ih.2
  | params _ ih => exact ih.2.1
  | body _ ih => exact ih.2.2

variable [Host]

/-- The stores that a host can bring about, with the values in its hands. -/
inductive Reachable : Store → List Value → Prop
  | empty : Reachable {} []
  | make {st : Store} {held : List Value} {v : Value} :
      Reachable st held → Obtainable held v → Reachable st (v :: held)
  | place {st : Store} {held : List Value} {v : Value} :
      Reachable st held → v ∈ held → Reachable (st.place v).2 ((st.place v).1 :: held)
  | newScope {st : Store} {held : List Value} {parent? : Option ScopeId} :
      Reachable st held → (∀ parent, parent? = some parent → parent < st.scopes.size) →
        Reachable (st.newScope parent?).2 held
  | newSlot {st : Store} {held : List Value} {v : Value} :
      Reachable st held → v ∈ held → Reachable (st.newSlot v).2 held
  | bindSlot {st : Store} {held : List Value} {scope : ScopeId} {name : String} {slot : SlotId} :
      Reachable st held → scope < st.scopes.size → slot < st.slots.size →
        Reachable (st.bindSlot scope name slot) held
  | setSlot {st : Store} {held : List Value} {slot : SlotId} {v : Value} :
      Reachable st held → v ∈ held → Reachable (st.setSlot slot v) held
  | readSlot {st : Store} {held : List Value} {slot : SlotId} {v : Value} :
      Reachable st held → st.slots[slot]? = some v → Reachable st (v :: held)
  | success {st st' : Store} {held : List Value} {e : Value} {env : ScopeId} {context : Context} :
      Reachable st held → e ∈ held → env < st.scopes.size → eval e env st = .ok context st' →
        Reachable st' (context.value :: held)
  | failure {st st' : Store} {held : List Value} {e : Value} {env : ScopeId} {error : Error} :
      Reachable st held → e ∈ held → env < st.scopes.size → eval e env st = .error error st' →
        Reachable st' held

namespace Reachable

variable {st : Store} {held : List Value}

/-- Binding a name is making a slot and sharing it. -/
theorem bind {v : Value} (h : Reachable st held) (hv : v ∈ held) {scope : ScopeId}
    (hscope : scope < st.scopes.size) (name : String) : Reachable (st.bind scope name v) held := by
  refine (h.newSlot hv).bindSlot hscope ?_
  simp [Store.newSlot]

variable [Host.Lawful]

/-- Every reachable store is sound, and so are the closures in the hands of the host. -/
theorem sound_and_held (h : Reachable st held) :
    st.Sound ∧ ∀ v ∈ held, v.Closures st.Made := by
  induction h with
  | empty => exact ⟨.empty, by simp⟩
  | make _ hv ih =>
    refine ⟨ih.1, ?_⟩
    rw [List.forall_mem_cons]
    exact ⟨hv.closures ih.2, ih.2⟩
  | @place st held v _ hv ih =>
    have hgrows : st.Grows (st.place v).2 := .of_content rfl rfl
    refine ⟨ih.1.content rfl rfl, ?_⟩
    rw [List.forall_mem_cons]
    exact ⟨Store.closures_made_mono hgrows (st.closures_place (ih.2 v hv)),
      fun w hw => Store.closures_made_mono hgrows (ih.2 w hw)⟩
  | @newScope st held parent? _ hparent ih =>
    exact ⟨ih.1.newScope hparent,
      fun w hw => Store.closures_made_mono (.newScope st parent?) (ih.2 w hw)⟩
  | @newSlot st held v _ hv ih =>
    exact ⟨ih.1.newSlot (ih.2 v hv),
      fun w hw => Store.closures_made_mono (.newSlot st v) (ih.2 w hw)⟩
  | @bindSlot st held scope name slot _ _ hslot ih =>
    exact ⟨ih.1.bindSlot hslot scope name,
      fun w hw => Store.closures_made_mono (.bindSlot st scope name slot) (ih.2 w hw)⟩
  | setSlot _ hv ih => exact ⟨ih.1.setSlot (ih.2 _ hv) _, ih.2⟩
  | readSlot _ hv ih =>
    refine ⟨ih.1, ?_⟩
    rw [List.forall_mem_cons]
    exact ⟨ih.1.values _ _ hv, ih.2⟩
  | @success st st' held e env context _ he henv hrun ih =>
    have hexpr : Discipline.sound.Expr st e := ⟨e.symbols_true, ih.2 e he⟩
    have hkeeps := Discipline.keeps_eval e ih.1 henv hexpr
    have hleaves : (eval e env).leaves st = st' := by simp [Run.leaves, hrun]
    obtain ⟨hinv, hgrows, hresult⟩ := hkeeps
    rw [hleaves] at hinv hgrows
    refine ⟨hinv, ?_⟩
    rw [List.forall_mem_cons]
    exact ⟨(hresult context st' hrun).2,
      fun w hw => Store.closures_made_mono hgrows (ih.2 w hw)⟩
  | @failure st st' held e env error _ he henv hrun ih =>
    have hexpr : Discipline.sound.Expr st e := ⟨e.symbols_true, ih.2 e he⟩
    have hleaves : (eval e env).leaves st = st' := by simp [Run.leaves, hrun]
    obtain ⟨hinv, hgrows, -⟩ := Discipline.keeps_eval e ih.1 henv hexpr
    rw [hleaves] at hinv hgrows
    exact ⟨hinv, fun w hw => Store.closures_made_mono hgrows (ih.2 w hw)⟩

theorem sound (h : Reachable st held) : st.Sound := h.sound_and_held.1

/-- What a host has in its hands it may evaluate. -/
theorem expr (h : Reachable st held) {e : Value} (he : e ∈ held) : Discipline.sound.Expr st e :=
  ⟨e.symbols_true, h.sound_and_held.2 e he⟩

end Reachable

end SlotLisp
