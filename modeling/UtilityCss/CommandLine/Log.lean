import UtilityCss.FileTree
import UtilityCss.Report

set_option autoImplicit false

namespace UtilityCss.CommandLine

def programName : String := "windsmith"

def daysBeforeEpoch : Nat := 719468

def twoDigits (n : Nat) : String := if n < 10 then "0" ++ toString n else toString n

/-- The day that is so many days after the first of January 1970, as year, month and day. Years are
counted from March here, so that a leap day is a year's last. -/
def dayText (days : Nat) : String :=
  let day := days + daysBeforeEpoch
  let cycle := day / 146097
  let ofCycle := day % 146097
  let yearOfCycle := (ofCycle - ofCycle / 1460 + ofCycle / 36524 - ofCycle / 146096) / 365
  let ofYear := ofCycle - (365 * yearOfCycle + yearOfCycle / 4 - yearOfCycle / 100)
  let monthFromMarch := (5 * ofYear + 2) / 153
  let dayOfMonth := ofYear - (153 * monthFromMarch + 2) / 5 + 1
  let month := if monthFromMarch < 10 then monthFromMarch + 3 else monthFromMarch - 9
  let year := 400 * cycle + yearOfCycle + (if month ≤ 2 then 1 else 0)
  toString year ++ "-" ++ twoDigits month ++ "-" ++ twoDigits dayOfMonth

example : dayText 0 = "1970-01-01" := by decide +kernel

example : dayText 11016 = "2000-02-29" := by decide +kernel

example : dayText 20453 = "2025-12-31" := by decide +kernel

def logPath (directory : Path) (day : String) : Path :=
  directory.child (programName ++ "." ++ day ++ ".log")

def openLog (tree : FileTree) (directory : Path) (day : String) :
    FileTree × Except FileFault Unit :=
  match tree.createDirectories directory with
  | (tree, .error fault) => (tree, .error fault)
  | (tree, .ok ()) =>
    if tree.exists? (logPath directory day) then (tree, .ok ())
    else match tree.write (logPath directory day) ByteArray.empty with
      | .error fault => (tree, .error fault)
      | .ok tree => (tree, .ok ())

def faultKind : FileFault → String
  | .notFound => "NotFound"
  | .fileExists => "AlreadyExists"
  | .notDirectory => "NotADirectory"
  | .isDirectory => "IsADirectory"
  | .nameTooLong => "InvalidFilename"
  | .zeroInName => "InvalidInput"
  | .notText => "InvalidData"

def faultRecord (fault : FileFault) : String :=
  let text := Report.jsonString fault.text
  let kind := "kind: " ++ faultKind fault ++ ", message: " ++ text ++ " \x7d"
  match fault.number? with
  | some number => "Os \x7b code: " ++ toString number ++ ", " ++ kind
  | none => "Error \x7b " ++ kind

end UtilityCss.CommandLine
