import SlotLisp.Proofs.Evaluation.Block
import SlotLisp.Proofs.Machine.Unlimited

/-!
# The limit on nested calls

While fewer than `callLimit` calls are in progress, evaluation comes to what it comes to without a
limit, and at the call that would make them as many it fails (`evaluation_below_the_limit`). So how
many calls an expression is evaluated in does not matter as long as they leave it enough room
(`depth_is_immaterial`).
-/

namespace SlotLisp

open Machine

/-- From the outside the limit shows only as a refusal: below it the run without a limit decides. -/
theorem evaluation_below_the_limit [Host] (e : Value) (env : ScopeId) (st : Store) (room : Nat) :
    (∀ r, EndsWithin (callLimit - 1) (.initial room e env st) r →
      eval e env st = r ∧ ¬ Refuses (.initial (callLimit - 1) e env st)) ∧
    (Exceeds (callLimit - 1) (.initial room e env st) →
      IsRefusal (eval e env st) ∧ Refuses (.initial (callLimit - 1) e env st)) := by
  rw [eval_eq_evalWithin]
  refine ⟨fun r hends => ⟨evalForm_of_endsWithin hends, fun hrefuses => ?_⟩, fun hexceeds => ?_⟩
  · exact hends.not_exceeds (exceeds_of_refuses hrefuses (.same rfl))
  · exact ⟨isRefusal_of_exceeds hexceeds, refuses_of_exceeds rfl hexceeds⟩

namespace Machine.IsRefusal

variable {α β : Type} {act : Run α} {st : Store}

theorem bind (h : IsRefusal (act st)) (next : α → Run β) : IsRefusal ((act >>= next) st) := by
  obtain ⟨context?, st', heq⟩ := h
  exact ⟨context?, st', bind_of_error heq⟩

theorem within (h : IsRefusal (act st)) (form : Value) : IsRefusal (Run.within form act st) := by
  obtain ⟨context?, st', heq⟩ := h
  rw [Run.within_of_error form heq]
  exact ⟨_, st', congrArg (EStateM.Result.error · st')
    (congrArg (Error.mk · _) (Error.problem_within _ form))⟩

end Machine.IsRefusal

/-! ## Nested blocks -/

/-- A body as a block of its own. -/
def blockOf (body : Value) : Value := Value.ofList [.symbol SpecialForm.begin.name, body]

/-- Blocks one inside the other, around a number: `(let () (let () ... 0))`. -/
def nestedBlocks : Nat → Value
  | 0 => .int 0
  | depth + 1 => Value.ofList [.symbol SpecialForm.letIn.name, .nil, nestedBlocks depth]

section

variable [Host]

theorem evalForm_blockOf (call : Caller) (body : Value) (env : ScopeId) :
    evalForm call (blockOf body) env = Run.within (blockOf body) (evalForm call body env) := by
  rw [← evalSequence_singleton call body ⟨.nil, env⟩]
  exact evalForm_begin call [body] env

/-- The call that a block without bindings makes. -/
def callBlock (call : Caller) (body : Value) (env : ScopeId) : Run Value := do
  let _ ← Run.newMark
  return (← call body (← Run.newScope (some env))).value

theorem evalForm_nestedBlocks (call : Caller) (depth : Nat) (env : ScopeId) :
    evalForm call (nestedBlocks (depth + 1)) env =
      Run.within (nestedBlocks (depth + 1)) do
        return ⟨← Run.within (blockCall (blockOf (nestedBlocks depth)))
          (callBlock call (blockOf (nestedBlocks depth)) env), env⟩ := by
  have hcheck (whole : Value) :
      checkOperands .letIn whole (.pair none .nil (.pair none (nestedBlocks depth) .nil)) =
        .ok () := rfl
  have hblock : letBlock (.pair none .nil (.pair none (nestedBlocks depth) .nil)) =
      .ok (blockOf (nestedBlocks depth)) := rfl
  rw [nestedBlocks]
  simp only [Value.ofList, Value.ofListTail_cons, Value.ofListTail_nil, Value.cons]
  rw [evalForm]
  simp only [Value.symbol?, Option.bind_some, SpecialForm.named?_name, hcheck, Run.ofOutcome,
    pure_bind, letForm, hblock, applyTo]
  rfl

variable {call : Caller} {depth : Nat} {env : ScopeId} {st st' : Store}

/-- The store in which the body of a block in `env` begins. -/
def Store.insideBlock (st : Store) (env : ScopeId) : Store :=
  (Store.newScope { st with marks := st.marks + 1 } (some env)).2

theorem evalForm_nestedBlocks_of_ok {context : Context}
    (h : call (blockOf (nestedBlocks depth)) st.scopes.size (st.insideBlock env) =
      .ok context st') :
    evalForm call (nestedBlocks (depth + 1)) env st = .ok ⟨context.value, env⟩ st' := by
  have hbody : callBlock call (blockOf (nestedBlocks depth)) env st = .ok context.value st' :=
    bind_of_ok (a := context) h
  rw [evalForm_nestedBlocks]
  exact Run.within_of_ok _ (bind_of_ok (Run.within_of_ok _ hbody))

theorem evalForm_nestedBlocks_of_refusal
    (h : IsRefusal (call (blockOf (nestedBlocks depth)) st.scopes.size (st.insideBlock env))) :
    IsRefusal (evalForm call (nestedBlocks (depth + 1)) env st) := by
  have hbody : IsRefusal (callBlock call (blockOf (nestedBlocks depth)) env st) :=
    h.bind fun context => (pure context.value : Run Value)
  rw [evalForm_nestedBlocks]
  exact ((hbody.within _).bind _).within _

/-- With room for `n` calls, blocks evaluate up to `n` levels deep and not beyond. -/
theorem evalForm_nestedBlocks_cases (n depth : Nat) (env : ScopeId) (st : Store) :
    (depth ≤ n → ∃ st', evalForm (evalWithin n) (nestedBlocks depth) env st =
      .ok ⟨.int 0, env⟩ st') ∧
    (n < depth → IsRefusal (evalForm (evalWithin n) (nestedBlocks depth) env st)) := by
  induction depth generalizing n env st with
  | zero => exact ⟨fun _ => ⟨st, by rw [nestedBlocks, evalForm.eq_def]; rfl⟩, fun h => by omega⟩
  | succ depth ih =>
    cases n with
    | zero =>
      refine ⟨fun h => by omega, fun _ => evalForm_nestedBlocks_of_refusal ?_⟩
      exact ⟨none, _, rfl⟩
    | succ n =>
      obtain ⟨hok, hrefusal⟩ := ih n st.scopes.size (st.insideBlock env)
      have hcall := congrFun (evalForm_blockOf (evalWithin n) (nestedBlocks depth) st.scopes.size)
        (st.insideBlock env)
      refine ⟨fun h => ?_, fun h => evalForm_nestedBlocks_of_refusal ?_⟩
      · obtain ⟨st', heq⟩ := hok (by omega)
        exact ⟨st', evalForm_nestedBlocks_of_ok (hcall.trans (Run.within_of_ok _ heq))⟩
      · rw [evalWithin, hcall]
        exact (hrefusal (by omega)).within _

end

section

attribute [local instance] Host.empty

/-- With as many blocks as the limit says, the run without a limit never has more calls than these
in progress and ends in a number; evaluation refuses it. -/
theorem callLimit_blocks_are_refused :
    let root := (({} : Store).newScope none).2
    (∃ st', EndsWithin callLimit (.initial 0 (nestedBlocks callLimit) 0 root)
      (.ok ⟨.int 0, 0⟩ st')) ∧
    IsRefusal (eval (nestedBlocks callLimit) 0 root) := by
  intro root
  have hlimit : callLimit - 1 < callLimit := by decide
  obtain ⟨st', hok⟩ :=
    (evalForm_nestedBlocks_cases callLimit callLimit 0 root).1 (Nat.le_refl callLimit)
  refine ⟨⟨st', ?_⟩, ?_⟩
  · obtain hends | ⟨-, context?, st'', herror⟩ :=
      evalForm_ends_or_exceeds callLimit (nestedBlocks callLimit) 0 root 0
    · exact hok ▸ hends
    · rw [hok] at herror
      cases herror
  · rw [eval_eq_evalWithin]
    exact (evalForm_nestedBlocks_cases (callLimit - 1) callLimit 0 root).2 hlimit

end

/-! ## Pending calls -/

section

variable [Host]

/-- With `depth` calls pending, the limit refuses the expression itself or some call inside it. -/
def RefusedAt (depth : Nat) (e : Value) (env : ScopeId) (st : Store) : Prop :=
  callLimit ≤ depth ∨ Refuses (.initial (callLimit - 1 - depth) e env st)

variable {e : Value} {env : ScopeId} {st : Store}

/-- More room changes nothing where no call has been refused. -/
theorem evalForm_eq_of_not_refuses {m n : Nat} (h : n ≤ m)
    (hrefuses : ¬ Refuses (.initial n e env st)) :
    evalForm (evalWithin m) e env st = evalForm (evalWithin n) e env st := by
  obtain hends | ⟨hexceeds, -⟩ := evalForm_ends_or_exceeds n e env st n
  · exact evalForm_of_endsWithin (hends.mono h)
  · exact absurd ((refuses_iff_exceeds n e env st).2 hexceeds) hrefuses

theorem evalWithin_of_lt {depth : Nat} (h : depth < callLimit) :
    evalWithin (callLimit - depth) e env st =
      evalForm (evalWithin (callLimit - 1 - depth)) e env st := by
  have hroom : callLimit - depth = callLimit - 1 - depth + 1 := by omega
  rw [hroom, evalWithin]

theorem evalWithin_eq_of_not_refusedAt {depth depth' : Nat} (h : depth' ≤ depth)
    (hrefused : ¬ RefusedAt depth e env st) :
    evalWithin (callLimit - depth') e env st = evalWithin (callLimit - depth) e env st := by
  obtain ⟨hdepth, hrefuses⟩ := not_or.1 hrefused
  rw [evalWithin_of_lt (by omega), evalWithin_of_lt (by omega)]
  exact evalForm_eq_of_not_refuses (by omega) hrefuses

/-- Whoever is refused fails. -/
theorem RefusedAt.isRefusal {depth : Nat} (h : RefusedAt depth e env st) :
    IsRefusal (evalWithin (callLimit - depth) e env st) := by
  obtain hdepth | hrefuses := h
  · rw [Nat.sub_eq_zero_of_le hdepth]
    exact ⟨none, st, rfl⟩
  · by_cases hdepth : callLimit ≤ depth
    · rw [Nat.sub_eq_zero_of_le hdepth]
      exact ⟨none, st, rfl⟩
    · rw [evalWithin_of_lt (by omega)]
      exact isRefusal_of_exceeds ((refuses_iff_exceeds _ e env st).1 hrefuses)

end

/-- Where the limit refuses nothing, what an expression comes to does not depend on the calls that
are pending: with fewer of them it is the same, and inside any calls it is what it is at the top. -/
theorem depth_is_immaterial [Host] {depth depth' : Nat} (h : depth' ≤ depth) (e : Value)
    (env : ScopeId) (st : Store) :
    (∀ context st', evalWithin (callLimit - depth) e env st = .ok context st' →
      evalWithin (callLimit - depth') e env st = .ok context st') ∧
    (∀ error st', evalWithin (callLimit - depth) e env st = .error error st' →
      ¬ RefusedAt depth e env st → evalWithin (callLimit - depth') e env st = .error error st') ∧
    (¬ RefusedAt depth e env st → ∀ frames, callsIn frames = depth →
      Reaches ⟨.form e env, callLimit - 1 - depth, frames, st⟩
        (settle (callLimit - 1 - depth) frames (eval e env st))) := by
  refine ⟨fun context st' hok => ?_, fun error st' herror hrefused => ?_,
    fun hrefused frames _ => ?_⟩
  · rw [← hok]
    refine evalWithin_eq_of_not_refusedAt h fun hrefused => ?_
    obtain ⟨context?, st'', herror⟩ := hrefused.isRefusal
    rw [hok] at herror
    cases herror
  · rw [← herror]
    exact evalWithin_eq_of_not_refusedAt h hrefused
  · have htop := evalWithin_eq_of_not_refusedAt (Nat.zero_le depth) hrefused
    rw [eval_eq_evalWithin, ← Nat.sub_zero callLimit, htop,
      evalWithin_of_lt (Nat.lt_of_not_le (not_or.1 hrefused).1)]
    exact reaches_evalForm _ e env frames st

section

attribute [local instance] Host.empty

/-- Three blocks inside 9990 calls and at the top. -/
theorem blocks_inside_calls_and_at_the_top :
    let root := (({} : Store).newScope none).2
    ∃ st', evalWithin (callLimit - 9990) (nestedBlocks 3) 0 root = .ok ⟨.int 0, 0⟩ st' ∧
      evalWithin (callLimit - 0) (nestedBlocks 3) 0 root = .ok ⟨.int 0, 0⟩ st' := by
  intro root
  obtain ⟨st', hok⟩ := (evalForm_nestedBlocks_cases (callLimit - 1 - 9990) 3 0 root).1 (by decide)
  have hdeep : evalWithin (callLimit - 9990) (nestedBlocks 3) 0 root = .ok ⟨.int 0, 0⟩ st' := by
    rw [evalWithin_of_lt (by decide), hok]
  exact ⟨st', hdeep, (depth_is_immaterial (by decide) (nestedBlocks 3) 0 root).1 _ _ hdeep⟩

end

end SlotLisp
