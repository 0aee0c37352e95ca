import RowRecipe.Logging
import RowRecipe.Proofs.Text.Upper

/-!
# Two readings of the surroundings

What logging does can be taken from the variables of the surroundings, or from settings, which read the same variables.
Without a settings file both choose the same level and the same directory, whatever the variables hold. They need not
choose the same log file: a variable that is not empty asks for one, but settings expect a word for yes.
-/

namespace RowRecipe.Logging

variable (l : Logging)

/-! ## What configuring does -/

section Updates

variable (n : Nat) (file? : Option String) (written : Mapping (List String)) (debugLog? : Option Bool)

/-- Whether the chosen log file can be opened. -/
def hasRoom : Bool :=
  l.canHold l.chosenDirectory && !l.isDirectory l.chosenFile

/-- Whether a log file is opened. -/
def opensFile : Bool :=
  l.wantsFile debugLog? && l.hasRoom

def withConsoleLevel : Logging :=
  { l with consoleLevel := n }

def withFile : Logging :=
  { l with file?, written }

@[simp] theorem consoleLevel_withConsoleLevel : (l.withConsoleLevel n).consoleLevel = n := rfl

@[simp] theorem chosenLevel_withConsoleLevel : (l.withConsoleLevel n).chosenLevel = l.chosenLevel := rfl

@[simp] theorem chosenDirectory_withConsoleLevel : (l.withConsoleLevel n).chosenDirectory = l.chosenDirectory := rfl

@[simp] theorem chosenFile_withConsoleLevel : (l.withConsoleLevel n).chosenFile = l.chosenFile := rfl

@[simp] theorem opensFile_withConsoleLevel : (l.withConsoleLevel n).opensFile debugLog? = l.opensFile debugLog? := rfl

@[simp] theorem file?_withFile : (l.withFile file? written).file? = file? := rfl

@[simp] theorem consoleLevel_withFile : (l.withFile file? written).consoleLevel = l.consoleLevel := rfl

@[simp] theorem chosenLevel_withFile : (l.withFile file? written).chosenLevel = l.chosenLevel := rfl

@[simp] theorem chosenDirectory_withFile : (l.withFile file? written).chosenDirectory = l.chosenDirectory := rfl

end Updates

section Configure

variable (directory? level? : Option String) (debugLog? : Option Bool)

/-- Logging with another directory and another level, before anything follows from them. -/
def configuredTo : Logging :=
  { l with directory?, level? }

/-- The chosen level comes into force, unless the console is silent. -/
def leveled : Logging :=
  if l.silenced then l else l.withConsoleLevel l.chosenLevel

/-- The log file is opened, or there is none. -/
def opened : Logging :=
  if l.opensFile debugLog? then
    l.withFile (some l.chosenFile) (l.written.put l.chosenFile ((l.written.get? l.chosenFile).getD []))
  else l.withFile none l.written

theorem configure_eq : l.configure directory? debugLog? level? =
    ((l.configuredTo directory? level?).leveled).opened debugLog? := by
  rw [opened, opensFile, hasRoom, ← Bool.and_assoc]
  rfl

theorem chosenLevel_configuredTo : (l.configuredTo directory? level?).chosenLevel =
    (LogLevel.ofName? (Text.upper (Text.trimmed ((firstGiven [level?, l.textOf? "LOG_LEVEL"]).getD "WARNING")))).getD
      LogLevel.warning := rfl

theorem chosenDirectory_configuredTo : (l.configuredTo directory? level?).chosenDirectory =
    (firstGiven [directory?, l.textOf? "LOG_DIR"]).getD
      (Text.inDirectory ((l.textOf? "PROJECT_ROOT").getD "") l.home) := by
  have htext (name : String) : (l.configuredTo directory? level?).textOf? name = l.textOf? name := rfl
  have hdirectory : (l.configuredTo directory? level?).directory? = directory? := rfl
  rw [chosenDirectory, htext, htext, hdirectory]
  cases firstGiven [directory?, l.textOf? "LOG_DIR"] <;> rfl

theorem chosenFile_configuredTo : (l.configuredTo directory? level?).chosenFile =
    Text.directPath (Text.inDirectory (l.configuredTo directory? level?).chosenDirectory "engine.log") := rfl

theorem opensFile_configuredTo : (l.configuredTo directory? level?).opensFile debugLog? =
    (l.wantsFile debugLog? && (l.canHold (l.configuredTo directory? level?).chosenDirectory &&
      !l.isDirectory (l.configuredTo directory? level?).chosenFile)) := rfl

theorem chosenLevel_configure :
    (l.configure directory? debugLog? level?).chosenLevel = (l.configuredTo directory? level?).chosenLevel := by
  rw [configure_eq, opened, leveled]
  split <;> split <;> simp

theorem chosenDirectory_configure :
    (l.configure directory? debugLog? level?).chosenDirectory = (l.configuredTo directory? level?).chosenDirectory := by
  rw [configure_eq, opened, leveled]
  split <;> split <;> simp

theorem consoleLevel_configure : (l.configure directory? debugLog? level?).consoleLevel =
    if l.silenced then l.consoleLevel else (l.configuredTo directory? level?).chosenLevel := by
  have hsame : (l.configuredTo directory? level?).consoleLevel = l.consoleLevel := rfl
  have hsilenced : (l.configuredTo directory? level?).silenced = l.silenced := rfl
  rw [configure_eq, opened, leveled, hsilenced]
  cases l.silenced <;> simp [apply_ite, hsame]

theorem file?_configure : (l.configure directory? debugLog? level?).file? =
    if (l.configuredTo directory? level?).opensFile debugLog? then
      some (l.configuredTo directory? level?).chosenFile else none := by
  rw [configure_eq, opened, leveled]
  cases (l.configuredTo directory? level?).silenced <;> simp [apply_ite]

end Configure

/-! ## The two readings -/

/-- The settings where there is no settings file. -/
def settings : Settings where
  surroundings := l.surroundings
  entries := []

/-- Logging as the variables configure it. -/
def byVariables : Logging :=
  l.configure none none none

/-- Logging as settings without a file configure it. -/
def bySettings : Logging :=
  l.applySettings l.settings

/-- Whether the variable for the log file holds a word for yes. -/
def saysYes : Bool :=
  (l.textOf? "DEBUG_LOG").any fun text => Settings.asBool (.text text)

/-- Without a file, a setting is what its variable holds, or else its default. -/
theorem get_settings {key name : String} {default : Value} (hname : Settings.variableOf? key = some name)
    (hdefault : Mapping.get? Settings.defaults key = some default) :
    l.settings.get key .null = ((l.textOf? name).map Value.text).getD default := by
  have hentries : Mapping.get? l.settings.entries key = none := rfl
  have hvariable : Mapping.get? l.settings.surroundings name = l.textOf? name := rfl
  rw [Settings.get, hname, Option.bind_some, hvariable, hentries, hdefault]
  cases l.textOf? name <;> rfl

theorem bySettings_eq : l.bySettings = l.configure ((l.textOf? "LOG_DIR").filter (!·.isEmpty)) (some l.saysYes)
    (some (Text.upper ((l.textOf? "LOG_LEVEL").getD "WARNING"))) := by
  have hdirectory : l.settings.get "log_dir" .null = ((l.textOf? "LOG_DIR").map Value.text).getD .null :=
    l.get_settings (by decide +kernel) (by rfl)
  have hdebug : l.settings.get "debug_log" .null = ((l.textOf? "DEBUG_LOG").map Value.text).getD (.bool false) :=
    l.get_settings (by decide +kernel) (by rfl)
  have hlevel : l.settings.get "log_level" .null = ((l.textOf? "LOG_LEVEL").map Value.text).getD (.text "WARNING") :=
    l.get_settings (by decide +kernel) (by rfl)
  rw [bySettings, applySettings, hdirectory, hlevel, hdebug, saysYes]
  congr 2
  · cases l.textOf? "LOG_DIR" with
    | none => rfl
    | some text => simp [Value.isGiven, Value.plain, Option.filter_some]
  · cases l.textOf? "DEBUG_LOG" with
    | none => rfl
    | some text => simp
  · cases l.textOf? "LOG_LEVEL" <;> simp [Value.plain]

/-! ## Where they agree -/

/-- The name of the level, where it is configured in upper case and where it is taken from its variable. -/
theorem firstGiven_upper (text? : Option String) :
    (firstGiven [some (Text.upper (text?.getD "WARNING")), text?]).getD "WARNING" =
      Text.upper ((firstGiven [none, text?]).getD "WARNING") := by
  have hwarning : Text.upper "WARNING" = "WARNING" := by decide +kernel
  cases text? with
  | none => simp [firstGiven, hwarning]
  | some text => cases h : text.isEmpty <;> simp [firstGiven, Text.isEmpty_upper, h, hwarning]

/-- A level is read the same way in upper case. -/
theorem chosenLevel_bySettings : l.bySettings.chosenLevel = l.byVariables.chosenLevel := by
  have hreading (name : String) : LogLevel.ofName? (Text.upper (Text.trimmed (Text.upper name))) =
      LogLevel.ofName? (Text.upper (Text.trimmed name)) := by
    rw [Text.trimmed_upper, Text.upper_upper]
  rw [bySettings_eq, byVariables, chosenLevel_configure, chosenLevel_configure, chosenLevel_configuredTo,
    chosenLevel_configuredTo, firstGiven_upper, hreading]

/-- An empty text names no directory. -/
theorem chosenDirectory_bySettings : l.bySettings.chosenDirectory = l.byVariables.chosenDirectory := by
  have hgiven : firstGiven [(l.textOf? "LOG_DIR").filter (!·.isEmpty), l.textOf? "LOG_DIR"] =
      firstGiven [none, l.textOf? "LOG_DIR"] := by
    cases l.textOf? "LOG_DIR" with
    | none => rfl
    | some text => cases h : text.isEmpty <;> simp [firstGiven, h, Option.filter_some]
  rw [bySettings_eq, byVariables, chosenDirectory_configure, chosenDirectory_configure, chosenDirectory_configuredTo,
    chosenDirectory_configuredTo, hgiven]

/-- A word for yes is not empty. -/
theorem wantsFile_of_saysYes (h : l.saysYes = true) : l.wantsFile none = true := by
  have hempty : Settings.asBool (.text "") = false := by decide +kernel
  rw [saysYes, Option.any_eq_true] at h
  obtain ⟨text, htext, hyes⟩ := h
  have hne : text.isEmpty = false := by
    rw [← Bool.not_eq_true, String.isEmpty_iff]
    rintro rfl
    rw [hempty] at hyes
    cases hyes
  rw [wantsFile, htext]
  simp [hne]

/-- Settings open the log file that the variables ask for, if these say yes, and else none. -/
theorem file?_bySettings : l.bySettings.file? = if l.saysYes then l.byVariables.file? else none := by
  have hdirectory := l.chosenDirectory_bySettings
  rw [bySettings_eq, byVariables, chosenDirectory_configure, chosenDirectory_configure] at hdirectory
  have hwants : l.wantsFile (some l.saysYes) = l.saysYes := rfl
  rw [bySettings_eq, byVariables, file?_configure, file?_configure, opensFile_configuredTo, opensFile_configuredTo,
    chosenFile_configuredTo, chosenFile_configuredTo, hdirectory, hwants]
  cases hyes : l.saysYes with
  | false => simp
  | true => simp [l.wantsFile_of_saysYes hyes]

theorem file?_byVariables (h : l.wantsFile none = false) : l.byVariables.file? = none := by
  rw [byVariables, file?_configure, opensFile_configuredTo, h]
  simp

/-- The settings open the log file of the variables unless its variable holds something else than a word for yes. -/
theorem file?_bySettings_iff : l.bySettings.file? = l.byVariables.file? ↔ ∀ text, l.textOf? "DEBUG_LOG" = some text →
    text = "" ∨ Settings.asBool (.text text) = true ∨ l.byVariables.file? = none := by
  rw [file?_bySettings]
  constructor
  · intro hsame text htext
    cases hword : Settings.asBool (.text text) with
    | true => exact .inr (.inl rfl)
    | false =>
      have hno : l.saysYes = false := by rw [saysYes, htext, Option.any_some, hword]
      rw [hno, if_neg Bool.false_ne_true] at hsame
      exact .inr (.inr hsame.symm)
  · intro hholds
    cases hyes : l.saysYes with
    | true => rfl
    | false =>
      symm
      cases htext : l.textOf? "DEBUG_LOG" with
      | none => exact l.file?_byVariables (by rw [wantsFile, htext]; rfl)
      | some text =>
        rcases hholds text htext with rfl | hword | hnone
        · exact l.file?_byVariables (by rw [wantsFile, htext]; rfl)
        · rw [saysYes, htext, Option.any_some, hword] at hyes
          cases hyes
        · exact hnone

theorem consoleLevel_bySettings : l.bySettings.consoleLevel = l.byVariables.consoleLevel := by
  have hlevel := l.chosenLevel_bySettings
  rw [bySettings_eq, byVariables, chosenLevel_configure, chosenLevel_configure] at hlevel
  rw [bySettings_eq, byVariables, consoleLevel_configure, consoleLevel_configure, hlevel]

/-- Whatever the variables hold, settings without a file choose the same level and the same directory as the variables
alone. They choose the same log file if and only if the variable for it is unset, empty, or a word for yes, or no log
file can be opened. Where they differ, the variables open one and the settings do not. -/
theorem bySettings_agrees :
    (l.bySettings.chosenLevel = l.byVariables.chosenLevel ∧ l.bySettings.consoleLevel = l.byVariables.consoleLevel) ∧
      l.bySettings.chosenDirectory = l.byVariables.chosenDirectory ∧
      l.bySettings.file? = (if l.saysYes then l.byVariables.file? else none) ∧
      (l.bySettings.file? = l.byVariables.file? ↔ ∀ text, l.textOf? "DEBUG_LOG" = some text →
        text = "" ∨ Settings.asBool (.text text) = true ∨ l.byVariables.file? = none) :=
  ⟨⟨l.chosenLevel_bySettings, l.consoleLevel_bySettings⟩, l.chosenDirectory_bySettings, l.file?_bySettings,
    l.file?_bySettings_iff⟩

/-- A variable that is not empty asks for a log file, but not every such text is a word for yes. -/
theorem readings_differ :
    (start [("DEBUG_LOG", "y"), ("PROJECT_ROOT", ".")] ".recipekit" []).byVariables.file? =
        some ".recipekit/engine.log" ∧
      (start [("DEBUG_LOG", "y"), ("PROJECT_ROOT", ".")] ".recipekit" []).bySettings.file? = none := by
  decide +kernel

end RowRecipe.Logging
