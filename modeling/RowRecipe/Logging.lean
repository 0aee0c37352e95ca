import RowRecipe.Settings

/-!
# Logging

Records go to the console from a level on that can be set, and to a file if that is asked for and the
directory of the file can be made. What is not configured is taken from the variables of the surroundings.
The console can be silenced, which no configuration undoes.
-/

namespace RowRecipe

namespace LogLevel

/-- The levels with names. Where two names share a level, the first one is shown. -/
def named : List (String × Nat) :=
  [("CRITICAL", 50), ("FATAL", 50), ("ERROR", 40), ("WARNING", 30), ("WARN", 30), ("INFO", 20),
    ("DEBUG", 10), ("NOTSET", 0)]

/-- The lowest level of records that are taken at all. -/
def debug : Nat := 10

def warning : Nat := 30

/-- A level above all levels with names. -/
def silent : Nat := 51

/-- The level of a name. -/
def ofName? (name : String) : Option Nat :=
  named.lookup name

/-- The name of a level. -/
def name (level : Int) : String :=
  match named.find? fun n => (n.2 : Int) == level with
  | some n => n.1
  | none => s!"Level {level}"

end LogLevel

/-- The state of logging. -/
structure Logging where
  surroundings : Variables
  /-- The directory of the engine's own files in a project. -/
  home : String
  /-- Files that are there from the start; none of them can be a directory. -/
  present : List String
  /-- The configured directory. -/
  directory? : Option String
  /-- The configured level of the console. -/
  level? : Option String
  /-- The level of the console in force. -/
  consoleLevel : Nat
  silenced : Bool
  /-- The open log file. -/
  file? : Option String
  /-- The lines of every log file that has been open. -/
  written : Mapping (List String)

namespace Logging

/-- The first text that is not empty. -/
def firstGiven (texts : List (Option String)) : Option String :=
  (texts.filterMap id).find? (!·.isEmpty)

variable (l : Logging)

/-- A variable of the surroundings. -/
def textOf? (name : String) : Option String :=
  Mapping.get? l.surroundings name

/-- The level that the console should have. A name that is no level counts as a warning. -/
def chosenLevel : Nat :=
  let name := (firstGiven [l.level?, l.textOf? "LOG_LEVEL"]).getD "WARNING"
  (LogLevel.ofName? (Text.upper (Text.trimmed name))).getD LogLevel.warning

/-- The directory of the log file. -/
def chosenDirectory : String :=
  match firstGiven [l.directory?, l.textOf? "LOG_DIR"] with
  | some directory => directory
  | none => Text.inDirectory ((l.textOf? "PROJECT_ROOT").getD "") l.home

/-- The log file, relative to the working directory. -/
def chosenFile : String :=
  Text.directPath (Text.inDirectory l.chosenDirectory "engine.log")

/-- Whether a directory can be made: no part of its path is a file, and no name in it is too long. -/
def canHold (directory : String) : Bool :=
  ((Text.ancestors directory).all fun part => !(l.present.contains part || l.written.has part)) &&
    (Text.segments directory).all (·.utf8ByteSize ≤ 255)

/-- Whether a path is a directory, because there is a log file somewhere below it. -/
def isDirectory (path : String) : Bool :=
  l.written.any fun file => (Text.ancestors file.1).dropLast.contains path

/-- Whether a log file is asked for. What is not configured is decided by a variable. -/
def wantsFile (debugLog? : Option Bool) : Bool :=
  debugLog?.getD ((l.textOf? "DEBUG_LOG").any (!·.isEmpty))

/-- Whether a log file is asked for whose directory can be made, but whose place a directory has. -/
def isObstructed (debugLog? : Option Bool) : Bool :=
  l.wantsFile debugLog? && l.canHold l.chosenDirectory && l.isDirectory l.chosenFile

/-- Sets what is configured. Without `debugLog?` a variable decides whether there is a log file. An
obstructed log file is not opened. -/
def configure (directory? : Option String) (debugLog? : Option Bool) (level? : Option String) :
    Logging :=
  let l := { l with directory?, level? }
  let l := if l.silenced then l else { l with consoleLevel := l.chosenLevel }
  if l.wantsFile debugLog? && l.canHold l.chosenDirectory && !l.isDirectory l.chosenFile then
    { l with file? := some l.chosenFile
             written := l.written.put l.chosenFile ((l.written.get? l.chosenFile).getD []) }
  else { l with file? := none }

/-- Logging before anything is configured: only warnings reach the console, and there is no log file.
The surroundings are not consulted before logging is configured or the silence of the console ends. -/
def start (surroundings : Variables) (home : String) (present : List String) : Logging :=
  { surroundings, home, present, directory? := none, level? := none, consoleLevel := LogLevel.warning
    silenced := false, file? := none, written := [] }

/-- Configures logging from the settings. -/
def applySettings (s : Settings) : Logging :=
  let directory := s.get "log_dir" .null
  l.configure (if directory.isGiven then some directory.plain else none)
    (some (Settings.asBool (s.get "debug_log" .null)))
    (some (Text.upper (s.get "log_level" .null).plain))

/-- Silences the console. -/
def suppress : Logging :=
  { l with silenced := true, consoleLevel := LogLevel.silent }

/-- Ends the silence of the console. -/
def restore : Logging :=
  let l := { l with silenced := false }
  { l with consoleLevel := l.chosenLevel }

/-- Sets a variable of the surroundings. -/
def setVariable (name value : String) : Logging :=
  { l with surroundings := Mapping.put l.surroundings name value }

/-- Writes a record, which may take several lines. Records below the lowest level are dropped. -/
def record (source : String) (level : Int) (text : String) : Logging :=
  match l.file? with
  | some file =>
    if level < LogLevel.debug then l
    else
      let lines := s!"{source} - {LogLevel.name level} - {text}".splitOn "\n"
      { l with written := l.written.put file ((l.written.get? file).getD [] ++ lines) }
  | none => l

/-- The lines of the open log file. -/
def lines : List String :=
  (l.file?.bind fun file => l.written.get? file).getD []

end Logging

end RowRecipe
