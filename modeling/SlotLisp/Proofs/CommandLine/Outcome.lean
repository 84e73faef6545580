import Mathlib.Data.List.Nodup
import SlotLisp.Proofs.CommandLine.Arguments
import SlotLisp.Proofs.Reader.Pieces
import SlotLisp.Proofs.Store.Listing

/-!
# What a command comes to

A command that only asks for help or is misused is answered at once. Any other one has a source,
whose text is read and evaluated in a new global environment (`Ends`). The listing, if it is wanted,
stands in front, and has each visible name of the environment that the run left behind once
(`Listing`).
-/

namespace SlotLisp

/-! ## Listings -/

/-- The names visible from a scope, those of native functions apart. -/
structure Listing (st : Store) (scope : ScopeId) where
  natives : List String
  others : List (String × Value)
  mem_natives_iff : ∀ name,
    name ∈ natives ↔ ∃ f, (Run.lookup scope name).yields st = .ok (.native f)
  mem_others_iff : ∀ name v, (name, v) ∈ others ↔
    (Run.lookup scope name).yields st = .ok v ∧ ∀ f, v ≠ .native f
  nodup : (natives ++ others.map (·.1)).Nodup

namespace Listing

variable {st : Store} {scope : ScopeId}

def line (entry : String × Value) : String :=
  "  " ++ entry.1 ++ " = " ++ entry.2.text ++ "\n"

def text (l : Listing st scope) : String :=
  "Builtin functions (" ++ toString l.natives.length ++ "):\n" ++
    "  " ++ " ".intercalate l.natives ++ "\n" ++
    if l.others.isEmpty then ""
    else
      "User-defined (" ++ toString l.others.length ++ "):\n" ++ String.join (l.others.map line)

end Listing

namespace CommandLine

theorem isNative_iff {v : Value} : isNative v = true ↔ ∃ f, v = .native f := by
  cases v <;> simp [isNative]

variable (st : Store) (scope : ScopeId)

theorem nodup_visibleNames : ((st.visibleValues scope).map (·.1)).Nodup := by
  refine List.pairwise_map.2 ((st.pairwise_visibleValues scope).imp fun hlt => ?_)
  exact Std.ne_of_lt hlt

/-- The visible names are parted by their values. -/
def listingOf : Listing st scope where
  natives := ((st.visibleValues scope).filter fun entry => isNative entry.2).map (·.1)
  others := (st.visibleValues scope).filter fun entry => !isNative entry.2
  mem_natives_iff name := by
    simp only [Store.yields_lookup_eq_ok_iff, ← Store.mem_visibleValues_iff, List.mem_map,
      List.mem_filter, isNative_iff]
    constructor
    · rintro ⟨⟨name, v⟩, ⟨hmem, f, rfl⟩, rfl⟩
      exact ⟨f, hmem⟩
    · rintro ⟨f, hmem⟩
      exact ⟨(name, .native f), ⟨hmem, f, rfl⟩, rfl⟩
  mem_others_iff name v := by
    simp only [Store.yields_lookup_eq_ok_iff, ← Store.mem_visibleValues_iff, List.mem_filter,
      Bool.not_eq_true', ← Bool.not_eq_true, isNative_iff, not_exists]
  nodup := by
    have hperm := List.filter_append_perm (fun entry => isNative entry.2) (st.visibleValues scope)
    rw [← List.map_append]
    exact (hperm.map _).nodup_iff.2 (nodup_visibleNames st scope)

theorem text_listingOf : (listingOf st scope).text = listing (st.visibleValues scope) := by
  unfold listing Listing.text
  rw [List.partition_eq_filter_filter]
  simp only [listingOf, List.length_map]
  rfl

/-! ## Evaluating a source -/

def globalEnv : ScopeId := ({} : Store).newGlobal.1

def globalStore : Store := ({} : Store).newGlobal.2

variable [Host]

/-- How reading a text and evaluating all of it in a new global environment ends, and the store that
is left behind. -/
inductive Ends (text : String) : Except Error Value → Store → Prop
  | value {program : List Value} {context : Context} {st : Store}
      (parses : readProgram text = .ok program)
      (evaluates : evalProgram program ⟨.nil, globalEnv⟩ globalStore = .ok context st) :
      Ends text (.ok context.value) st
  | unreadable {e : ReadError} (fails : readProgram text = .error e) :
      Ends text (.error ⟨.reading e, none⟩) globalStore
  | failed {program : List Value} {e : Error} {st : Store}
      (parses : readProgram text = .ok program)
      (fails : evalProgram program ⟨.nil, globalEnv⟩ globalStore = .error e st) :
      Ends text (.error e) st

/-- The text of a source, for given contents of the file that it may name. -/
def Source.text? (contents : Except String String) : Source → Except String String
  | demo => .ok CommandLine.demo
  | inline text => .ok text
  | file _ => contents

/-- What a command answers. The listing, if it is wanted, stands in front of the value, and is there
also after an error; but a file that cannot be read leaves nothing to list. -/
inductive Answers (contents : Except String String) : Command → Report → Prop
  | help : Answers contents .help ⟨0, usage ++ "\n", ""⟩
  | misuse (m : Misuse) :
      Answers contents (.refuse m) ⟨2, "", "Error: " ++ m.message ++ "\n\n" ++ usage ++ "\n"⟩
  | noFile {o : Options} {path reason : String} (names : o.source = .file path)
      (lacks : contents = .error reason) :
      Answers contents (.run o) ⟨1, "", "Error: cannot read " ++ path ++ ": " ++ reason ++ "\n"⟩
  | value {o : Options} {text : String} {v : Value} {st : Store} (l : Listing st globalEnv)
      (has : o.source.text? contents = .ok text) (ends : Ends text (.ok v) st) :
      Answers contents (.run o)
        ⟨0, (if o.showEnv then l.text else "") ++ v.text ++ "\n", ""⟩
  | error {o : Options} {text : String} {e : Error} {st : Store} (l : Listing st globalEnv)
      (has : o.source.text? contents = .ok text) (ends : Ends text (.error e) st) :
      Answers contents (.run o) ⟨1, if o.showEnv then l.text else "", e.message ++ "\n"⟩

variable {contents : Except String String} {command : Command} {o : Options} {text : String}
  {v : Value} {e : Error} {st : Store} {showEnv : Bool}

theorem exists_ends (text : String) : ∃ r st, Ends text r st := by
  cases hread : readProgram text with
  | error e => exact ⟨_, _, .unreadable hread⟩
  | ok program =>
    cases heval : evalProgram program ⟨.nil, globalEnv⟩ globalStore with
    | ok context st => exact ⟨_, _, .value hread heval⟩
    | error e st => exact ⟨_, _, .failed hread heval⟩

theorem Ends.evalText_eq_ok (h : Ends text (.ok v) st) :
    ∃ context, context.value = v ∧
      (evalText text globalEnv).run globalStore = .ok context st := by
  cases h with
  | @value _ context _ parses evaluates =>
    refine ⟨context, rfl, ?_⟩
    rw [evalText_of_readProgram parses]
    exact evaluates

theorem Ends.evalText_eq_error (h : Ends text (.error e) st) :
    (evalText text globalEnv).run globalStore = .error e st := by
  cases h with
  | unreadable fails =>
    rw [evalText]
    simp only [fails]
    rfl
  | failed parses fails =>
    rw [evalText_of_readProgram parses]
    exact fails

theorem runSource_of_ok (h : Ends text (.ok v) st) :
    runSource showEnv text =
      ⟨0, (if showEnv then (listingOf st globalEnv).text else "") ++ v.text ++ "\n", ""⟩ := by
  obtain ⟨context, rfl, hrun⟩ := h.evalText_eq_ok
  rw [globalEnv, globalStore] at hrun
  rw [text_listingOf, globalEnv]
  unfold runSource
  simp only [hrun]

theorem runSource_of_error (h : Ends text (.error e) st) :
    runSource showEnv text =
      ⟨1, if showEnv then (listingOf st globalEnv).text else "", e.message ++ "\n"⟩ := by
  have hrun := h.evalText_eq_error
  rw [globalEnv, globalStore] at hrun
  rw [text_listingOf, globalEnv]
  unfold runSource
  simp only [hrun]

theorem report_run_of_text (has : o.source.text? contents = .ok text) :
    (Command.run o).report contents = runSource o.showEnv text := by
  obtain ⟨source, showEnv⟩ := o
  cases source with
  | demo =>
    cases has
    rfl
  | inline text =>
    cases has
    rfl
  | file path =>
    change contents = .ok text at has
    rw [has]
    rfl

/-- Only a file can be without a text. -/
theorem report_run_of_no_text {reason : String} (lacks : o.source.text? contents = .error reason) :
    ∃ path, o.source = .file path ∧ contents = .error reason ∧
      (Command.run o).report contents =
        ⟨1, "", "Error: cannot read " ++ path ++ ": " ++ reason ++ "\n"⟩ := by
  obtain ⟨source, showEnv⟩ := o
  cases source with
  | demo => cases lacks
  | inline text => cases lacks
  | file path =>
    change contents = .error reason at lacks
    subst lacks
    exact ⟨path, rfl, rfl, rfl⟩

theorem answers_report (contents : Except String String) (command : Command) :
    Answers contents command (command.report contents) := by
  cases command with
  | help => exact .help
  | refuse m => exact .misuse m
  | run o =>
    cases has : o.source.text? contents with
    | error reason =>
      obtain ⟨path, names, lacks, hreport⟩ := report_run_of_no_text has
      rw [hreport]
      exact .noFile names lacks
    | ok text =>
      rw [report_run_of_text has]
      obtain ⟨r, st, ends⟩ := exists_ends text
      cases r with
      | ok v =>
        rw [runSource_of_ok ends]
        exact .value _ has ends
      | error e =>
        rw [runSource_of_error ends]
        exact .error _ has ends

/-! ## Exit codes -/

namespace Command

def Succeeds (contents : Except String String) (command : Command) : Prop :=
  command = .help ∨ ∃ o text v st,
    command = .run o ∧ o.source.text? contents = .ok text ∧ Ends text (.ok v) st

def Fails (contents : Except String String) (command : Command) : Prop :=
  ∃ o, command = .run o ∧
    ((∃ reason, o.source.text? contents = .error reason) ∨
      ∃ text e st, o.source.text? contents = .ok text ∧ Ends text (.error e) st)

theorem exitCode_of_succeeds (h : command.Succeeds contents) :
    (command.report contents).exitCode = 0 := by
  obtain rfl | ⟨o, text, v, st, rfl, has, ends⟩ := h
  · rfl
  · rw [report_run_of_text has, runSource_of_ok ends]

theorem exitCode_of_fails (h : command.Fails contents) :
    (command.report contents).exitCode = 1 := by
  obtain ⟨o, rfl, ⟨reason, lacks⟩ | ⟨text, e, st, has, ends⟩⟩ := h
  · obtain ⟨path, -, -, hreport⟩ := report_run_of_no_text lacks
    rw [hreport]
  · rw [report_run_of_text has, runSource_of_error ends]

theorem succeeds_or_fails (o : Options) (contents : Except String String) :
    (run o).Succeeds contents ∨ (run o).Fails contents := by
  cases has : o.source.text? contents with
  | error reason => exact .inr ⟨o, rfl, .inl ⟨reason, has⟩⟩
  | ok text =>
    obtain ⟨r, st, ends⟩ := exists_ends text
    cases r with
    | ok v => exact .inl (.inr ⟨o, text, v, st, rfl, has, ends⟩)
    | error e => exact .inr ⟨o, rfl, .inr ⟨text, e, st, has, ends⟩⟩

/-- Each exit code has a meaning of its own, and there are no others. -/
theorem exitCode_iff (contents : Except String String) (command : Command) :
    ((command.report contents).exitCode = 0 ↔ command.Succeeds contents) ∧
      ((command.report contents).exitCode = 1 ↔ command.Fails contents) ∧
      ((command.report contents).exitCode = 2 ↔ ∃ m, command = .refuse m) := by
  have hzero : command.Succeeds contents → (command.report contents).exitCode = 0 :=
    exitCode_of_succeeds
  have hone : command.Fails contents → (command.report contents).exitCode = 1 :=
    exitCode_of_fails
  have htwo : ∀ m, command = .refuse m → (command.report contents).exitCode = 2 := by
    rintro m rfl
    rfl
  have hall : command.Succeeds contents ∨ command.Fails contents ∨ ∃ m, command = .refuse m := by
    cases command with
    | help => exact .inl (.inl rfl)
    | refuse m => exact .inr (.inr ⟨m, rfl⟩)
    | run o => exact (succeeds_or_fails o contents).imp_right .inl
  grind

omit [Host] in
theorem path?_eq_some_iff {path : String} :
    command.path? = some path ↔ ∃ showEnv, command = .run ⟨.file path, showEnv⟩ := by
  constructor
  · intro h
    cases command with
    | help => cases h
    | refuse m => cases h
    | run o =>
      obtain ⟨source, showEnv⟩ := o
      cases source with
      | demo => cases h
      | inline text => cases h
      | file path' =>
        cases h
        exact ⟨showEnv, rfl⟩
  · rintro ⟨showEnv, rfl⟩
    rfl

end Command

/-! ## From the arguments to the outcome -/

/-- The arguments say one command, and this command comes to what it has to come to. A file is read
only if it is the source of a command that evaluates something. -/
theorem arguments_decide_outcome (args : List String) (contents : Except String String) :
    ∃ command, Command.ofArgs args = command ∧
      (∀ command', Says args command' ↔ command' = command) ∧
      Answers contents command (command.report contents) ∧
      (∀ path, command.path? = some path ↔ ∃ showEnv, command = .run ⟨.file path, showEnv⟩) ∧
      ((command.report contents).exitCode = 0 ↔ command.Succeeds contents) ∧
      ((command.report contents).exitCode = 1 ↔ command.Fails contents) ∧
      ((command.report contents).exitCode = 2 ↔ ∃ m, command = .refuse m) := by
  refine ⟨_, rfl, fun command' => ?_, answers_report contents _,
    fun path => Command.path?_eq_some_iff, Command.exitCode_iff contents _⟩
  rw [says_iff, eq_comm]

end CommandLine

end SlotLisp
