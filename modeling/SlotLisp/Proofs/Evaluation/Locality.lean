import SlotLisp.Proofs.Evaluation.Reachable

/-!
# Definitions are local

Evaluation binds names in the scope it runs in and in scopes that it makes itself, and nowhere else.
So calls and `let` blocks leave every map of names to slots as it was, names that share a slot go on
sharing it, and a write through one of them is read through the others.
-/

namespace SlotLisp

namespace Store

/-- The scopes of `st` that are not in `own` bind the same names to the same slots in `st'`. -/
def SameMaps (own : ScopeId → Prop) (st st' : Store) : Prop :=
  ∀ scope < st.scopes.size, ¬ own scope → st'.bindingsOf scope = st.bindingsOf scope

/-- What a run in `env` leaves of the scopes of `st`: only `env` itself may come to bind other
slots, and it forgets no name. Names that share a slot, and that `env` binds as before, go on
sharing it. -/
structure LocalTo (env : ScopeId) (st st' : Store) : Prop where
  maps : SameMaps (· = env) st st'
  parents : ∀ scope < st.scopes.size, st'.parentOf? scope = st.parentOf? scope
  names : ∀ name, st.bindsLocally env name = true → st'.bindsLocally env name = true
  visible : ∀ scope name, (st.slotOf? scope name).isSome = true →
    (st'.slotOf? scope name).isSome = true
  shared : ∀ scope scope' a b slot, st.slotOf? scope a = some slot →
    st.slotOf? scope' b = some slot →
    (∀ name, name = a ∨ name = b →
      (st'.bindingsOf env).find? name = (st.bindingsOf env).find? name) →
    st'.slotOf? scope a = some slot ∧ st'.slotOf? scope' b = some slot ∧
      ∀ v, (st'.assign? scope a v).bind (·.valueOf? scope' b) = some v

variable {own : ScopeId → Prop} {st st' : Store}

/-- What binds nothing in the scopes that are there does not matter. -/
theorem SameMaps.trans {st'' : Store} (h : SameMaps own st st')
    (h' : SameMaps (fun _ => False) st' st'') (hsize : st.scopes.size ≤ st'.scopes.size) :
    SameMaps own st st'' := fun scope hscope hown => by
  rw [h' scope (Nat.lt_of_lt_of_le hscope hsize) id, h scope hscope hown]

theorem SameMaps.newScope (h : SameMaps own st st') (parent? : Option ScopeId) :
    SameMaps own st (st'.newScope parent?).2 := by
  intro scope hscope hown
  rw [bindingsOf_newScope, h scope hscope hown]

theorem SameMaps.bindSlot (h : SameMaps own st st') {env : ScopeId}
    (henv : own env ∨ st.scopes.size ≤ env) (name : String) (slot : SlotId) :
    SameMaps own st (st'.bindSlot env name slot) := by
  intro scope hscope hown
  rw [bindingsOf_bindSlot_of_ne, h scope hscope hown]
  rintro rfl
  obtain henv | henv := henv
  · exact hown henv
  · exact Nat.not_lt.2 henv hscope

theorem findSome?_congr {α β : Type} {f g : α → Option β} {l : List α} (h : ∀ a ∈ l, f a = g a) :
    l.findSome? f = l.findSome? g := by
  induction l with
  | nil => rfl
  | cons a l ih =>
    rw [List.forall_mem_cons] at h
    rw [List.findSome?_cons, List.findSome?_cons, h.1, ih h.2]

/-- A visible name keeps its slot when only the scopes in `own` may have changed and they still bind
the name as before. -/
theorem SameMaps.slotOf?_eq (hmaps : SameMaps own st st') (hgrows : st.Grows st')
    {scope : ScopeId} {name : String} {slot : SlotId} (h : st.slotOf? scope name = some slot)
    (hkept : ∀ s, own s → (st'.bindingsOf s).find? name = (st.bindingsOf s).find? name) :
    st'.slotOf? scope name = some slot := by
  have hscope : scope < st.scopes.size := lt_of_slotOf? h
  rw [← h, slotOf?, slotOf?, hgrows.chain_eq hscope]
  apply findSome?_congr
  intro s hs
  by_cases hown : own s
  · exact hkept s hown
  · have hlt : s < st.scopes.size := Nat.lt_of_le_of_lt (le_of_mem_chain hs) hscope
    rw [hmaps s hlt hown]

/-- What is written through a name is read through every name that refers to the same slot. -/
theorem valueOf?_of_assign? {scope scope' : ScopeId} {a b : String} {slot : SlotId} {v : Value}
    (ha : st.slotOf? scope a = some slot) (hb : st.slotOf? scope' b = some slot)
    (hslot : slot < st.slots.size) :
    (st.assign? scope a v).bind (·.valueOf? scope' b) = some v := by
  rw [assign?, ha, Option.map_some, Option.bind_some, valueOf?_setSlot hslot hb]

end Store

open Store

theorem Store.Sound.localTo {st st' : Store} (hst : st.Sound) (hgrows : st.Grows st')
    {env : ScopeId} (hmaps : SameMaps (· = env) st st') : LocalTo env st st' := by
  refine ⟨hmaps, hgrows.parents, hgrows.names env, fun _ _ => hgrows.slotOf?_isSome, ?_⟩
  intro scope scope' a b slot ha hb hkept
  have hslot : slot < st'.slots.size := Nat.lt_of_lt_of_le (hst.slot_lt ha) hgrows.slots
  have ha' := hmaps.slotOf?_eq hgrows ha fun s hs => hs ▸ hkept a (.inl rfl)
  have hb' := hmaps.slotOf?_eq hgrows hb fun s hs => hs ▸ hkept b (.inr rfl)
  exact ⟨ha', hb', fun v => valueOf?_of_assign? ha' hb' hslot⟩

/-- No function of the host binds a name in a scope that is there when it is called. -/
class Host.Local [Host] : Prop extends Host.Lawful where
  maps (key : String) (args : List Value) (st : Store) :
    SameMaps (fun _ => False) st ((call key args).leaves st)

instance Host.local_of_detached [Host] [Host.Detached] : Host.Local where
  maps key args st scope _ _ := by rw [bindingsOf_congr (scopes_of_detached key args st)]

section

variable [Host] [Host.Local]

/-- Code runs in the scopes of `own` and in those that `st₀` does not have, and only these may come
to bind other slots than in `st₀`. -/
def Discipline.within (st₀ : Store) (own : ScopeId → Prop) : Discipline where
  Inv st := st₀.scopes.size ≤ st.scopes.size ∧ SameMaps own st₀ st
  Env _ scope := own scope ∨ st₀.scopes.size ≤ scope
  Closure _ _ _ _ := True
  Sym _ := True
  env_mono _ henv := henv
  closure_mono _ _ := trivial
  content h hscopes _ := by
    refine ⟨hscopes ▸ h.1, fun scope hscope hown => ?_⟩
    rw [← h.2 scope hscope hown, bindingsOf, bindingsOf, hscopes]
  define_sym := trivial
  begin_sym := trivial
  lambda _ _ _ := trivial
  code {_ _ body _} _ := body.symbols_true
  enter {st _ _ scope} h _ :=
    ⟨⟨Nat.le_trans h.1 (Grows.newScope st (some scope)).scopes, h.2.newScope (some scope)⟩,
      .inr h.1⟩
  lookup {_ _ _ v} _ _ _ := v.closures_true
  bind {st env name v} h henv _ := by
    have hslot : SameMaps own st₀ (st.newSlot v).2 := h.2
    exact ⟨Nat.le_trans h.1 (Grows.bind st env name v).scopes, hslot.bindSlot henv name _⟩
  share {st env name _ slot} h henv _ :=
    ⟨Nat.le_trans h.1 (Grows.bindSlot st env name slot).scopes, h.2.bindSlot henv name slot⟩
  assign _ h _ _ hassign := by
    obtain ⟨slot, -, rfl⟩ := Option.map_eq_some_iff.1 hassign
    exact h
  host key args st h _ := by
    have hgrows := Host.Lawful.grows key args st
    refine ⟨⟨Nat.le_trans h.1 hgrows.scopes, h.2.trans (Host.Local.maps key args st) h.1⟩,
      hgrows, fun v _ _ => v.closures_true⟩

namespace Discipline

variable {st : Store} {own : ScopeId → Prop}

theorem inv_within (st : Store) (own : ScopeId → Prop) : (within st own).Inv st :=
  ⟨Nat.le_refl _, fun _ _ _ => rfl⟩

theorem expr_within (st st' : Store) (own : ScopeId → Prop) (e : Value) :
    (within st own).Expr st' e :=
  ⟨e.symbols_true, e.closures_true⟩

theorem keeps_eval_within (st : Store) (e : Value) (env : ScopeId) :
    (within st (· = env)).Keeps (eval e env) st ((within st (· = env)).Stays env) :=
  keeps_eval e (inv_within st _) (.inl rfl) (expr_within st st _ e)

/-- Applying a value binds in new scopes only. -/
theorem sameMaps_applyTo (n : Nat) (args : List Value) (callee : Value) (st : Store) :
    SameMaps (fun _ => False) st ((applyTo (evalWithin n) args callee).leaves st) := by
  have hval : ∀ v, (within st fun _ => False).Val st v := fun v => (expr_within st st _ v).2
  exact (keeps_applyTo (keepsCalls_evalWithin n) (inv_within st _) (hval callee)
    fun v _ => hval v).inv.2

/-- A `let` binds in new scopes only, whatever the environment that it stands in. -/
theorem sameMaps_let (n : Nat) (mark : Option Nat) (operands : Value) (env : ScopeId)
    (st : Store) :
    SameMaps (fun _ => False) st
      ((evalForm (evalWithin n) (.pair mark (.symbol SpecialForm.letIn.name) operands)
        env).leaves st) := by
  have hkeeps : (within st fun _ => False).Keeps
      (evalForm (evalWithin n) (.pair mark (.symbol SpecialForm.letIn.name) operands) env) st
      fun _ _ => True := by
    rw [evalForm]
    refine Keeps.within ?_ _
    simp only [Value.symbol?, Option.bind_some, SpecialForm.named?_name]
    refine (keeps_ofOutcome (Q := fun _ _ => True) (inv_within st _) fun _ _ => trivial).bind ?_
    intro _ st' hinv hgrows _
    refine (keeps_letForm (keepsCalls_evalWithin n) hinv (expr_within st st' _ operands)
      fun _ _ _ _ => trivial).bind ?_
    exact fun v _ hinv' _ _ => keeps_pure hinv' trivial
  exact hkeeps.inv.2

end Discipline

end

/-- Evaluation is local to its own scope, whether it succeeds or fails, as long as the host binds no
names behind its back. Calls and `let` blocks change no map at all, and an assignment does not
change which slot a name refers to. -/
theorem definitions_are_local [Host] [Host.Local] {st : Store} {held : List Value}
    (hst : Reachable st held) (e : Value) (env : ScopeId) :
    LocalTo env st ((eval e env).leaves st) ∧
    (∀ n args callee,
      SameMaps (fun _ => False) st ((applyTo (evalWithin n) args callee).leaves st)) ∧
    (∀ n mark operands outer, SameMaps (fun _ => False) st
      ((evalForm (evalWithin n) (.pair mark (.symbol SpecialForm.letIn.name) operands)
        outer).leaves st)) ∧
    (∀ scope name v st', st.assign? scope name v = some st' →
      ∀ scope' name', st'.slotOf? scope' name' = st.slotOf? scope' name') := by
  obtain ⟨⟨-, hmaps⟩, hgrows, -⟩ := Discipline.keeps_eval_within st e env
  refine ⟨hst.sound.localTo hgrows hmaps, ?_, ?_, ?_⟩
  · exact fun n args callee => Discipline.sameMaps_applyTo n args callee st
  · exact fun n mark operands outer => Discipline.sameMaps_let n mark operands outer st
  · intro scope name v st' hassign scope' name'
    obtain ⟨slot, -, rfl⟩ := Option.map_eq_some_iff.1 hassign
    exact slotOf?_setSlot slot v

section

attribute [local instance] Host.empty

/-- A definition in an inner scope, seen from the outer one. -/
theorem outer_scope_after_inner_definition :
    ((eval (Value.ofList [.symbol "define", .symbol "a", .int 2]) 1).leaves
      ((({} : Store).newScope none).2.newScope (some 0)).2).bindingsOf 0 = {} := by
  have hroot : Reachable (({} : Store).newScope none).2 [] :=
    Reachable.empty.newScope fun _ h => by cases h
  have hinner : Reachable ((({} : Store).newScope none).2.newScope (some 0)).2 [] :=
    hroot.newScope fun _ h => by obtain rfl := Option.some.inj h; decide
  exact (definitions_are_local hinner _ 1).1.maps 0 (by decide) (by decide)

end

end SlotLisp
