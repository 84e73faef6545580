import SlotLisp.Machine.Execution

/-!
# The machine without a limit

`State.stepFreely` is the transition of a machine that always has room for one more call. A call in
progress is a frame that waits for the value of a body. With room for `n` calls the machine goes the
way of the machine without a limit while no more than `n` are in progress, and fails for want of
room at the first one beyond them (`ends_or_exceeds`).
-/

namespace SlotLisp

/-- Naming a combination in an error leaves its cause as it is. -/
theorem Error.problem_within (e : Error) (form : Value) : (e.within form).problem = e.problem := by
  unfold Error.within
  split <;> rfl

namespace Machine

/-- What the machine comes to in the end. -/
abbrev Ending := EStateM.Result Error Store Context

/-- The state in which the evaluation of an expression begins. -/
def State.initial (room : Nat) (e : Value) (env : ScopeId) (st : Store) : State :=
  ⟨.form e env, room, [], st⟩

/-! ## Calls in progress -/

/-- A frame that waits for the value of a body. -/
def Frame.isBody : Frame → Bool
  | body _ => true
  | _ => false

def callsIn (frames : List Frame) : Nat := frames.countP Frame.isBody

/-- The number of closure calls in progress, one inside the other. -/
def State.calls (s : State) : Nat := callsIn s.frames

@[simp] theorem callsIn_nil : callsIn [] = 0 := rfl

@[simp] theorem callsIn_cons (frame : Frame) (frames : List Frame) :
    callsIn (frame :: frames) = callsIn frames + if frame.isBody then 1 else 0 :=
  List.countP_cons

section

variable [Host]

/-- The transition of a state that has room for one more call, whatever room is left in it. -/
def State.stepFreely (s : State) : State ⊕ Ending := ({ s with room := 1 } : State).step

/-- Without a limit the run from `s` ends in `r`, with never more than `n` calls in progress. -/
inductive EndsWithin (n : Nat) : State → Ending → Prop
  | last {s : State} {r : Ending} : s.calls ≤ n → s.stepFreely = .inr r → EndsWithin n s r
  | step {s t : State} {r : Ending} : s.calls ≤ n → s.stepFreely = .inl t → EndsWithin n t r →
      EndsWithin n s r

/-- Without a limit the run from `s` has at some moment more than `n` calls in progress. -/
inductive Exceeds (n : Nat) : State → Prop
  | here {s : State} : n < s.calls → Exceeds n s
  | step {s t : State} : s.stepFreely = .inl t → Exceeds n t → Exceeds n s

/-- At some moment of the run from `s` the call that is due next finds no room. -/
inductive Refuses : State → Prop
  | here {s t : State} : s.stepFreely = .inl t → s.room + s.calls < t.calls → Refuses s
  | later {s t : State} : s.step = .inl t → Refuses t → Refuses s

/-! ## Runs without a limit -/

section Runs

variable {m n : Nat} {s : State} {r r' : Ending}

theorem EndsWithin.not_exceeds (h : EndsWithin n s r) : ¬ Exceeds n s := by
  induction h with
  | last hcalls hlast =>
    intro hexceeds
    cases hexceeds with
    | here hmore => omega
    | step hstep _ =>
      rw [hlast] at hstep
      cases hstep
  | step hcalls hstep _ ih =>
    intro hexceeds
    cases hexceeds with
    | here hmore => omega
    | step hstep' hlater =>
      rw [hstep] at hstep'
      cases hstep'
      exact ih hlater

/-- A run comes to one end only. -/
theorem EndsWithin.unique (h : EndsWithin m s r) (h' : EndsWithin n s r') : r = r' := by
  induction h with
  | last _ hlast =>
    cases h' with
    | last _ hlast' => exact Sum.inr.inj (hlast.symm.trans hlast')
    | step _ hstep _ =>
      rw [hlast] at hstep
      cases hstep
  | step _ hstep _ ih =>
    cases h' with
    | last _ hlast =>
      rw [hstep] at hlast
      cases hlast
    | step _ hstep' hends =>
      rw [hstep] at hstep'
      cases hstep'
      exact ih hends

theorem EndsWithin.mono (h : EndsWithin m s r) (hmn : m ≤ n) : EndsWithin n s r := by
  induction h with
  | last hcalls hlast => exact .last (Nat.le_trans hcalls hmn) hlast
  | step hcalls hstep _ ih => exact .step (Nat.le_trans hcalls hmn) hstep ih

end Runs

end

/-! ## What the limit changes -/

/-- What a limit of `n` calls makes of a state of the run without one: it is the same but for the
room left, or it has failed at a call too many. -/
inductive Limited (n : Nat) : State → State → Prop
  | same {control : Control} {frames : List Frame} {st : Store} {room room' : Nat} :
      room + callsIn frames = n →
      Limited n ⟨control, room, frames, st⟩ ⟨control, room', frames, st⟩
  | refused {room : Nat} {frames : List Frame} {st : Store} {free : State} :
      n < free.calls →
      Limited n ⟨.failed ⟨.depthLimit callLimit, none⟩, room, frames, st⟩ free

section Lockstep

variable {n room : Nat} {frames : List Frame} {st : Store} {env : ScopeId}

theorem limited_settle (h : room + callsIn frames = n) (r : Ending) :
    Limited n (settle room frames r) (settle 1 frames r) := by
  cases r <;> exact .same h

theorem limited_enter (h : room + callsIn frames = n) (body : Value) (scope : ScopeId) :
    Limited n (enter body scope env room frames st) (enter body scope env 1 frames st) := by
  cases room with
  | zero =>
    refine .refused ?_
    simp [enter, State.calls, Frame.isBody]
    omega
  | succ room =>
    refine .same ?_
    simp [Frame.isBody]
    omega

theorem limited_sequence (h : room + callsIn frames = n) (context : Context) (es : Value) :
    Limited n (sequence context room frames st es) (sequence context 1 frames st es) := by
  cases es with
  | pair mark e rest => exact .same (by simpa [Frame.isBody] using h)
  | _ => exact .same h

theorem limited_define (h : room + callsIn frames = n) (operands : Value) :
    Limited n (define env room frames st operands) (define env 1 frames st operands) := by
  unfold define
  split
  · exact limited_settle h _
  · exact .same (by simpa [Frame.isBody] using h)
  · exact limited_settle h _

theorem limited_assign (h : room + callsIn frames = n) (operands : Value) :
    Limited n (assign env room frames st operands) (assign env 1 frames st operands) := by
  unfold assign
  split
  · exact .same (by simpa [Frame.isBody] using h)
  · exact limited_settle h _

theorem limited_branch (h : room + callsIn frames = n) (operands : Value) :
    Limited n (branch env room frames st operands) (branch env 1 frames st operands) := by
  unfold branch
  split
  · exact .same (by simpa [Frame.isBody] using h)
  · exact .same (by simpa [Frame.isBody] using h)
  · exact limited_settle h _

theorem limited_unwind (frame : Frame) (h : room + callsIn (frame :: frames) = n) (e : Error) :
    Limited n (unwind e room frames st frame) (unwind e 1 frames st frame) := by
  cases frame with
  | body env =>
    refine .same ?_
    simp [Frame.isBody] at h
    omega
  | _ => exact .same (by simpa [Frame.isBody] using h)

variable [Host]

theorem limited_call (h : room + callsIn frames = n) (args : List Value) (callee : Value) :
    Limited n (call args callee env room frames st) (call args callee env 1 frames st) := by
  cases callee with
  | closure mark params body captured =>
    simp only [call]
    cases enterClosure params captured args st with
    | ok scope st' => exact limited_enter h body scope
    | error e st' => exact .same h
  | native f => exact limited_settle h _
  | _ => exact .same h

theorem limited_arguments (h : room + callsIn frames = n) (callee : Value) (args : List Value)
    (operands : Value) :
    Limited n (arguments callee args env room frames st operands)
      (arguments callee args env 1 frames st operands) := by
  cases operands with
  | pair mark e rest => exact .same (by simpa [Frame.isBody] using h)
  | _ => exact limited_call h args.reverse callee

theorem limited_block (h : room + callsIn frames = n) (operands : Value) :
    Limited n (block operands env room frames st) (block operands env 1 frames st) := by
  unfold block
  split
  · exact limited_call (by simpa [Frame.isBody] using h) [] _
  · exact .same h

theorem limited_special (h : room + callsIn frames = n) (form : SpecialForm) (operands : Value) :
    Limited n (special form operands env room frames st)
      (special form operands env 1 frames st) := by
  cases form with
  | define => exact limited_define h operands
  | assign => exact limited_assign h operands
  | letIn => exact limited_block h operands
  | begin => exact limited_sequence h ⟨.nil, env⟩ operands
  | branch => exact limited_branch h operands
  | _ => exact limited_settle h _

theorem limited_combination (h : room + callsIn frames = n) (whole head operands : Value) :
    Limited n (combination whole head operands env room frames st)
      (combination whole head operands env 1 frames st) := by
  unfold combination
  split
  · split
    · exact limited_special h _ operands
    · exact .same h
  · split
    · exact .same h
    · exact .same (by simpa [Frame.isBody] using h)

theorem limited_resume (frame : Frame) (h : room + callsIn (frame :: frames) = n)
    (context : Context) :
    Limited n (resume context room frames st frame) (resume context 1 frames st frame) := by
  cases frame with
  | within form => exact .same (by simpa [Frame.isBody] using h)
  | define name env => exact .same (by simpa [Frame.isBody] using h)
  | assign name env => exact limited_settle (by simpa [Frame.isBody] using h) _
  | sequence rest => exact limited_sequence (by simpa [Frame.isBody] using h) context rest
  | branch consequent alternative? =>
    have h' : room + callsIn frames = n := by simpa [Frame.isBody] using h
    simp only [resume]
    split
    · exact .same h'
    · split <;> exact .same h'
  | callee operands => exact limited_arguments (by simpa [Frame.isBody] using h) _ _ operands
  | argument callee rest args =>
    exact limited_arguments (by simpa [Frame.isBody] using h) callee _ rest
  | body env =>
    refine .same ?_
    simp [Frame.isBody] at h
    omega

/-- The two machines end together, or go on to states that the limit relates. -/
theorem limited_step (h : room + callsIn frames = n) (st : Store) (control : Control)
    (room' : Nat) :
    Sum.LiftRel (Limited n) Eq (State.step ⟨control, room, frames, st⟩)
      (State.stepFreely ⟨control, room', frames, st⟩) := by
  cases control with
  | form e env =>
    cases e with
    | symbol name => exact .inl (limited_settle h _)
    | pair mark head operands =>
      exact .inl (limited_combination (by simpa [Frame.isBody] using h) _ head operands)
    | _ => exact .inl (.same h)
  | done context =>
    cases frames with
    | nil => exact .inr rfl
    | cons frame frames => exact .inl (limited_resume frame h context)
  | failed e =>
    cases frames with
    | nil => exact .inr rfl
    | cons frame frames => exact .inl (limited_unwind frame h e)

/-- A transition of the limited machine, seen from the one without a limit. -/
theorem stepFreely_of_step (h : room + callsIn frames = n) {control : Control} (room' : Nat)
    {s : State} (hs : State.step ⟨control, room, frames, st⟩ = .inl s) :
    ∃ free, State.stepFreely ⟨control, room', frames, st⟩ = .inl free ∧ Limited n s free := by
  have hsteps := limited_step h st control room'
  rw [hs] at hsteps
  cases hfree : State.stepFreely ⟨control, room', frames, st⟩ with
  | inl free =>
    rw [hfree] at hsteps
    cases hsteps with
    | inl hlimited => exact ⟨free, rfl, hlimited⟩
  | inr r =>
    rw [hfree] at hsteps
    cases hsteps

/-- A transition of the machine without a limit, seen from the limited one. -/
theorem step_of_stepFreely (h : room + callsIn frames = n) {control : Control} {room' : Nat}
    {free : State} (hfree : State.stepFreely ⟨control, room', frames, st⟩ = .inl free) :
    ∃ s, State.step ⟨control, room, frames, st⟩ = .inl s ∧ Limited n s free := by
  have hsteps := limited_step h st control room'
  rw [hfree] at hsteps
  cases hs : State.step ⟨control, room, frames, st⟩ with
  | inl s =>
    rw [hs] at hsteps
    cases hsteps with
    | inl hlimited => exact ⟨s, rfl, hlimited⟩
  | inr r =>
    rw [hs] at hsteps
    cases hsteps

theorem stepFreely_of_end (h : room + callsIn frames = n) {control : Control} (room' : Nat)
    {r : Ending} (hs : State.step ⟨control, room, frames, st⟩ = .inr r) :
    State.stepFreely ⟨control, room', frames, st⟩ = .inr r := by
  have hsteps := limited_step h st control room'
  rw [hs] at hsteps
  cases hfree : State.stepFreely ⟨control, room', frames, st⟩ with
  | inl free =>
    rw [hfree] at hsteps
    cases hsteps
  | inr r' =>
    rw [hfree] at hsteps
    cases hsteps with
    | inr heq => exact congrArg Sum.inr heq.symm

end Lockstep

/-! ## Runs with a limit -/

theorem unwind_eq (e : Error) (room : Nat) (frames : List Frame) (st : Store) (frame : Frame) :
    ∃ e' room', e'.problem = e.problem ∧
      unwind e room frames st frame = ⟨.failed e', room', frames, st⟩ := by
  cases frame with
  | within form => exact ⟨e.within form, room, e.problem_within form, rfl⟩
  | body env => exact ⟨e, room + 1, rfl, rfl⟩
  | _ => exact ⟨e, room, rfl, rfl⟩

variable [Host]

/-- Nothing catches an error: the frames at most name a combination in it. -/
theorem ends_of_failed {frames : List Frame} {e : Error} {room : Nat} {st : Store} {t : State}
    {r : Ending} (h : Reaches ⟨.failed e, room, frames, st⟩ t) (ht : t.step = .inr r) :
    ∃ context?, r = .error ⟨e.problem, context?⟩ st := by
  induction frames generalizing e room with
  | nil =>
    cases h with
    | here => exact ⟨e.context?, (Sum.inr.inj ht).symm⟩
    | step hstep _ => cases hstep
  | cons frame frames ih =>
    obtain ⟨e', room', hproblem, heq⟩ := unwind_eq e room frames st frame
    cases h with
    | here => cases ht
    | step hstep hrest =>
      obtain rfl := Sum.inl.inj hstep
      rw [heq] at hrest
      rw [← hproblem]
      exact ih hrest

/-- The error of a call for which there is no room. -/
def IsRefusal {α : Type} (r : EStateM.Result Error Store α) : Prop :=
  ∃ context? st, r = .error ⟨.depthLimit callLimit, context?⟩ st

/-- With a limit the run ends as it does without one, or some call was too many and it fails. -/
theorem Limited.ends_or_exceeds {n : Nat} {s t free : State} {r : Ending} (h : Reaches s t)
    (ht : t.step = .inr r) (hlimited : Limited n s free) :
    EndsWithin n free r ∨ Exceeds n free ∧ IsRefusal r := by
  induction h generalizing free with
  | here s =>
    cases hlimited with
    | @same control frames st room room' hroom =>
      have hcalls : callsIn frames ≤ n := by omega
      exact .inl (.last hcalls (stepFreely_of_end hroom room' ht))
    | refused hmore =>
      obtain ⟨context?, heq⟩ := ends_of_failed (.here _) ht
      exact .inr ⟨.here hmore, context?, _, heq⟩
  | @step s s' _ hs hrest ih =>
    cases hlimited with
    | @same control frames st room room' hroom =>
      have hcalls : callsIn frames ≤ n := by omega
      obtain ⟨free', hfree, hlimited'⟩ := stepFreely_of_step hroom room' hs
      obtain hends | ⟨hexceeds, hrefusal⟩ := ih ht hlimited'
      · exact .inl (.step hcalls hfree hends)
      · exact .inr ⟨.step hfree hexceeds, hrefusal⟩
    | refused hmore =>
      -- After a refusal the two machines part; the limited one has only frames left to unwind.
      obtain ⟨context?, heq⟩ := ends_of_failed (.step hs hrest) ht
      exact .inr ⟨.here hmore, context?, _, heq⟩

/-- Evaluation with room for `n` calls: it ends as it does without a limit, or some call was too
many and it fails. -/
theorem evalForm_ends_or_exceeds (n : Nat) (e : Value) (env : ScopeId) (st : Store) (room : Nat) :
    EndsWithin n (.initial room e env st) (evalForm (evalWithin n) e env st) ∨
      Exceeds n (.initial room e env st) ∧
        IsRefusal (evalForm (evalWithin n) e env st) :=
  Limited.ends_or_exceeds (reaches_evalForm n e env [] st) (step_settle_nil n _) (.same rfl)

theorem evalForm_of_endsWithin {n room : Nat} {e : Value} {env : ScopeId} {st : Store} {r : Ending}
    (h : EndsWithin n (.initial room e env st) r) : evalForm (evalWithin n) e env st = r := by
  obtain hends | ⟨hexceeds, -⟩ := evalForm_ends_or_exceeds n e env st room
  · exact hends.unique h
  · exact absurd hexceeds h.not_exceeds

theorem isRefusal_of_exceeds {n room : Nat} {e : Value} {env : ScopeId} {st : Store}
    (h : Exceeds n (.initial room e env st)) :
    IsRefusal (evalForm (evalWithin n) e env st) := by
  obtain hends | ⟨-, hrefusal⟩ := evalForm_ends_or_exceeds n e env st room
  · exact absurd h hends.not_exceeds
  · exact hrefusal

/-- The limited machine finds no room once the one without a limit goes beyond it. -/
theorem refuses_of_exceeds {n room room' : Nat} {control : Control} {frames : List Frame}
    {st : Store} (hroom : room + callsIn frames = n)
    (h : Exceeds n ⟨control, room', frames, st⟩) : Refuses ⟨control, room, frames, st⟩ := by
  generalize hs : (⟨control, room', frames, st⟩ : State) = free at h
  induction h generalizing control room room' frames st with
  | here hmore =>
    subst hs
    simp only [State.calls] at hmore
    omega
  | step hfree _ ih =>
    subst hs
    obtain ⟨s, hs, hlimited⟩ := step_of_stepFreely hroom hfree
    cases hlimited with
    | same hroom' => exact .later hs (ih hroom' rfl)
    | refused hmore => exact .here hfree (hroom ▸ hmore)

theorem exceeds_of_refuses {n : Nat} {s free : State} (h : Refuses s)
    (hlimited : Limited n s free) : Exceeds n free := by
  induction h generalizing free with
  | here hfree hmore =>
    cases hlimited with
    | same hroom => exact .step hfree (.here (hroom ▸ hmore))
    | refused hmore' => exact .here hmore'
  | later hs _ ih =>
    cases hlimited with
    | @same control frames st room room' hroom =>
      obtain ⟨free', hfree, hlimited'⟩ := stepFreely_of_step hroom room' hs
      exact .step hfree (ih hlimited')
    | refused hmore => exact .here hmore

theorem refuses_iff_exceeds (n : Nat) (e : Value) (env : ScopeId) (st : Store) :
    Refuses (.initial n e env st) ↔ Exceeds n (.initial n e env st) :=
  ⟨fun h => exceeds_of_refuses h (.same rfl), refuses_of_exceeds rfl⟩

end Machine

end SlotLisp
