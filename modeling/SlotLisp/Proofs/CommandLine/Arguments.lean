import SlotLisp.CommandLine

/-!
# What the arguments of a command say

Arguments are settings, one after the other, up to the first that is none: a request for help, an
unknown option, or a flag that lacks its source (`Says`). The scan finds out which of these it is
(`says_iff`). A flag for a source takes the next argument, whatever it looks like.
-/

namespace SlotLisp.CommandLine

def helpFlags : List String := ["-h", "--help"]

def evalFlags : List String := ["-e", "--eval"]

def knownFlags : List String := helpFlags ++ evalFlags ++ ["--env"]

def BeginsWithDash (arg : String) : Prop := arg.toList.head? = some '-'

/-- What the scan passes over: a request for the listing, a source behind its flag, or a path. -/
inductive Setting
  | env
  | inline (flag text : String) (known : flag ∈ evalFlags)
  | file (path : String) (undashed : ¬ BeginsWithDash path)

namespace Setting

def words : Setting → List String
  | env => ["--env"]
  | inline flag text _ => [flag, text]
  | file path _ => [path]

def source? : Setting → Option Source
  | env => none
  | inline _ text _ => some (.inline text)
  | file path _ => some (.file path)

def isEnv : Setting → Bool
  | env => true
  | _ => false

/-- The last source, or the demo if there is none, and whether the listing is wanted. -/
def options (settings : List Setting) : Options where
  source := (settings.filterMap source?).getLast?.getD .demo
  showEnv := settings.any isEnv

/-- One setting more. -/
def update (o : Options) : Setting → Options
  | env => { o with showEnv := true }
  | inline _ text _ => { o with source := .inline text }
  | file path _ => { o with source := .file path }

end Setting

/-- The first argument that is no setting decides. -/
inductive Says : List String → Command → Prop
  | help (settings : List Setting) {flag : String} (known : flag ∈ helpFlags) (rest : List String) :
      Says (settings.flatMap Setting.words ++ flag :: rest) .help
  | missingSource (settings : List Setting) {flag : String} (known : flag ∈ evalFlags) :
      Says (settings.flatMap Setting.words ++ [flag]) (.refuse (.missingSource flag))
  | unknownOption (settings : List Setting) {arg : String} (dashed : BeginsWithDash arg)
      (unknown : arg ∉ knownFlags) (rest : List String) :
      Says (settings.flatMap Setting.words ++ arg :: rest) (.refuse (.unknownOption arg))
  | run (settings : List Setting) :
      Says (settings.flatMap Setting.words) (.run (Setting.options settings))

variable {args rest : List String} {flag arg : String} {command : Command} (o : Options)

/-! ## The scan of one argument -/

theorem scan_help (known : flag ∈ helpFlags) : scan o (flag :: rest) = .help := by
  rw [scan.eq_def]
  simp only [helpFlags, List.mem_cons, List.not_mem_nil, or_false] at known
  simp [known]

theorem scan_missingSource (known : flag ∈ evalFlags) :
    scan o [flag] = .refuse (.missingSource flag) := by
  rw [scan.eq_def]
  simp only [evalFlags, List.mem_cons, List.not_mem_nil, or_false] at known
  obtain rfl | rfl := known <;> simp

theorem mem_knownFlags_iff :
    arg ∈ knownFlags ↔
      arg = "-h" ∨ arg = "--help" ∨ arg = "-e" ∨ arg = "--eval" ∨ arg = "--env" := by
  simp [knownFlags, helpFlags, evalFlags]

theorem beginsWithDash_of_known (h : arg ∈ knownFlags) : BeginsWithDash arg := by
  obtain rfl | rfl | rfl | rfl | rfl := mem_knownFlags_iff.1 h <;> rfl

theorem scan_unknownOption (dashed : BeginsWithDash arg) (unknown : arg ∉ knownFlags) :
    scan o (arg :: rest) = .refuse (.unknownOption arg) := by
  rw [scan.eq_def]
  simp only [mem_knownFlags_iff, not_or] at unknown
  rw [BeginsWithDash] at dashed
  simp [unknown, dashed]

theorem scan_setting (setting : Setting) :
    scan o (setting.words ++ rest) = scan (setting.update o) rest := by
  cases setting with
  | env =>
    show scan o ("--env" :: rest) = _
    rw [scan.eq_def]
    simp [Setting.update]
  | inline flag text known =>
    show scan o (flag :: text :: rest) = _
    rw [scan.eq_def]
    simp only [evalFlags, List.mem_cons, List.not_mem_nil, or_false] at known
    obtain rfl | rfl := known <;> simp [Setting.update]
  | file path undashed =>
    show scan o (path :: rest) = _
    have unknown : path ∉ knownFlags := fun h => undashed (beginsWithDash_of_known h)
    rw [scan.eq_def]
    simp only [mem_knownFlags_iff, not_or] at unknown
    rw [BeginsWithDash] at undashed
    simp [unknown, undashed, Setting.update]

theorem scan_settings (settings : List Setting) :
    scan o (settings.flatMap Setting.words ++ rest) =
      scan (settings.foldl Setting.update o) rest := by
  induction settings generalizing o with
  | nil => rfl
  | cons setting settings ih =>
    rw [List.flatMap_cons, List.append_assoc, scan_setting, ih, List.foldl_cons]

/-- The settings one after the other come to the last source and to any request for the listing. -/
theorem foldl_update (settings : List Setting) :
    settings.foldl Setting.update o =
      { source := (settings.filterMap Setting.source?).getLast?.getD o.source
        showEnv := o.showEnv || settings.any Setting.isEnv } := by
  induction settings generalizing o with
  | nil => simp
  | cons setting settings ih =>
    rw [List.foldl_cons, ih, List.any_cons, ← Bool.or_assoc]
    cases setting with
    | env => simp [Setting.update, Setting.source?, Setting.isEnv]
    | inline => simp [Setting.update, Setting.source?, Setting.isEnv, List.getLast?_cons]
    | file => simp [Setting.update, Setting.source?, Setting.isEnv, List.getLast?_cons]

/-! ## The scan of all arguments -/

theorem Says.ofArgs_eq (h : Says args command) : Command.ofArgs args = command := by
  rw [Command.ofArgs]
  cases h with
  | help settings known rest => rw [scan_settings, scan_help _ known]
  | missingSource settings known => rw [scan_settings, scan_missingSource _ known]
  | unknownOption settings dashed unknown rest =>
    rw [scan_settings, scan_unknownOption _ dashed unknown]
  | run settings =>
    rw [← List.append_nil (settings.flatMap Setting.words), scan_settings, foldl_update]
    simp [scan, Setting.options]

/-- A setting in front leaves the rest to say what it says. -/
theorem Says.setting (h : Says args command) (setting : Setting) :
    ∃ command, Says (setting.words ++ args) command := by
  cases h with
  | help settings known rest =>
    rw [← List.append_assoc, ← List.flatMap_cons]
    exact ⟨_, .help (setting :: settings) known rest⟩
  | missingSource settings known =>
    rw [← List.append_assoc, ← List.flatMap_cons]
    exact ⟨_, .missingSource (setting :: settings) known⟩
  | unknownOption settings dashed unknown rest =>
    rw [← List.append_assoc, ← List.flatMap_cons]
    exact ⟨_, .unknownOption (setting :: settings) dashed unknown rest⟩
  | run settings =>
    rw [← List.flatMap_cons]
    exact ⟨_, .run (setting :: settings)⟩

/-- Each argument is part of a setting or ends the settings. -/
theorem exists_says (args : List String) : ∃ command, Says args command := by
  fun_induction scan {} args with
  | case1 => exact ⟨_, .run []⟩
  | case2 _ flag rest hhelp =>
    have known : flag ∈ helpFlags := by simpa [helpFlags] using hhelp
    exact ⟨_, .help [] known rest⟩
  | case3 _ flag _ heval =>
    have known : flag ∈ evalFlags := by simpa [evalFlags] using heval
    exact ⟨_, .missingSource [] known⟩
  | case4 _ flag _ heval text rest ih =>
    -- Two arguments at once: the text may look like a flag.
    have known : flag ∈ evalFlags := by simpa [evalFlags] using heval
    obtain ⟨command, hrest⟩ := ih
    exact hrest.setting (.inline flag text known)
  | case5 _ rest _ _ ih =>
    obtain ⟨command, hrest⟩ := ih
    exact hrest.setting .env
  | case6 _ arg rest hhelp heval henv dashed =>
    have unknown : arg ∉ knownFlags := by simp_all [mem_knownFlags_iff]
    exact ⟨_, .unknownOption [] dashed unknown rest⟩
  | case7 _ path rest _ _ _ undashed ih =>
    obtain ⟨command, hrest⟩ := ih
    exact hrest.setting (.file path undashed)

theorem says_iff : Says args command ↔ Command.ofArgs args = command := by
  refine ⟨Says.ofArgs_eq, ?_⟩
  rintro rfl
  obtain ⟨command, h⟩ := exists_says args
  exact h.ofArgs_eq ▸ h

example : Command.ofArgs ["a", "-e", "--help", "--env"] = .run ⟨.inline "--help", true⟩ := by decide

end SlotLisp.CommandLine
