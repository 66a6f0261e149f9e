/-
This file models the settings of libhv's default logger and the functions that
set them from strings.
-/
import Netmt.Text

namespace Netmt

open CMem

/-- The log levels. -/
inductive LogLevel where
  | verbose | debug | info | warn | error | fatal | silent
  deriving DecidableEq, Repr

/-- The arrays the logger's functions can run off. -/
inductive LogObject where
  | filepath
  deriving DecidableEq, Repr

/-- The settings in `logger_t`. -/
structure Logger where
  level : LogLevel
  filepath : CharArray 256
  maxFilesize : Nat
  remainDays : Int
  enableFsync : Bool
  deriving DecidableEq, Repr

/-- `DEFAULT_LOG_LEVEL`. -/
def defaultLogLevel : LogLevel := .info

/-- The level a name stands for. -/
def logLevelOf (szLoglevel : List UInt8) : LogLevel :=
  if szLoglevel = text "VERBOSE" then .verbose
  else if szLoglevel = text "DEBUG" then .debug
  else if szLoglevel = text "INFO" then .info
  else if szLoglevel = text "WARN" then .warn
  else if szLoglevel = text "ERROR" then .error
  else if szLoglevel = text "FATAL" then .fatal
  else if szLoglevel = text "SILENT" then .silent
  else defaultLogLevel

/-- `logger_set_level_by_str`. -/
def Logger.setLevelByStr (logger : Logger) (szLoglevel : List UInt8) : Logger :=
  { logger with level := logLevelOf szLoglevel }

/-- `logger_set_remain_days`. -/
def Logger.setRemainDays (logger : Logger) (days : Int) : Logger :=
  { logger with remainDays := days }

/-- A path without its suffix `.log`. -/
def removeSuffix (path : List UInt8) : List UInt8 :=
  match strrchr 46 path with
  | some suffix => if path.drop suffix = text ".log" then path.take suffix else path
  | none => path

/-- `logger_set_file`. -/
def Logger.setFile (logger : Logger) (filepath : List UInt8) : Exec LogObject Logger := do
  let copied ← (CharArray.strncpy 256 filepath).string LogObject.filepath
  .ok { logger with filepath := CharArray.strncpy 256 (removeSuffix copied) }

/-- The unit of a size: its last character, or the one before a final `B`; a bare number counts
megabytes. -/
def filesizeUnit (str : List UInt8) : UInt8 :=
  let last := str.getLastD 0
  if isDigit last then 77
  else if last = 66 then str.dropLast.getLastD 0
  else last

/-- The size a string stands for, if it is a positive number with a unit. -/
def filesizeOf (str : List UInt8) : Option Nat :=
  let num := atoi str
  if num ≤ 0 then none
  else if filesizeUnit str = 75 then some (num.toNat <<< 10)
  else if filesizeUnit str = 71 then some (num.toNat <<< 30)
  else some (num.toNat <<< 20)

/-- `logger_set_max_filesize_by_str`, which ignores what is not a positive number. -/
def Logger.setMaxFilesizeByStr (logger : Logger) (str : List UInt8) : Logger :=
  match filesizeOf str with
  | none => logger
  | some filesize => { logger with maxFilesize := filesize }

theorem Logger.setMaxFilesizeByStr_eq (logger : Logger) (str : List UInt8) :
    logger.setMaxFilesizeByStr str =
      { logger with maxFilesize := (filesizeOf str).getD logger.maxFilesize } := by
  unfold Logger.setMaxFilesizeByStr
  cases filesizeOf str <;> rfl

example : filesizeOf (text "16KB") = some (16 * 1024) := by decide

/-- `logger_enable_fsync`. -/
def Logger.setFsync (logger : Logger) (on : Bool) : Logger :=
  { logger with enableFsync := on }

/-- `logger_init`. -/
def Logger.init : Logger :=
  { level := defaultLogLevel
    filepath := CharArray.strncpy 256 (text "libhv")
    maxFilesize := 1 <<< 24
    remainDays := 1
    enableFsync := true }

theorem Logger.setFile_eq (logger : Logger) (filepath : List UInt8) :
    logger.setFile filepath =
      if filepath.length < 256 then
        .ok { logger with filepath := CharArray.strncpy 256 (removeSuffix filepath) }
      else .error (.outOfBounds .filepath) := by
  rw [Logger.setFile, CharArray.string_strncpy]
  by_cases short : filepath.length < 256
  · rw [if_pos short, if_pos short, ok_bind]
  · rw [if_neg short, if_neg short, error_bind]

theorem removeSuffix_length_le (path : List UInt8) : (removeSuffix path).length ≤ path.length := by
  unfold removeSuffix
  split
  · split
    · exact List.length_take_le' _ _
    · exact Nat.le_refl _
  · exact Nat.le_refl _

end Netmt
