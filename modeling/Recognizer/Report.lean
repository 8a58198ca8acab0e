import Recognizer.Dfa.Run
import Recognizer.Error
import Recognizer.Text.Basic

/-!
# Reports

What is told about the run of a word, in words and as a file. Only the path of an accepted word is
ever saved, and it replaces whatever the file held before.
-/

namespace Recognizer

set_option autoImplicit false

structure Report where
  word : String
  run : Run
  name : State → String := Nat.repr

namespace Report

/-! ## Texts -/

def path (r : Report) : String := "->".intercalate (r.run.path.map r.name)

def accepted (word : String) : String := "'" ++ word ++ "' é reconhecida\n"

def rejected (word : String) : String := "'" ++ word ++ "' não é reconhecida\n"

def text (r : Report) : String :=
  match r.run.rejection with
  | none => accepted r.word ++ "[ caminho " ++ r.path ++ "]"
  | some (.foreign c) =>
    rejected r.word ++ "[símbolo '" ++ c.toString ++ "' não pertence ao alfabeto]"
  | some (.stuck s c) =>
    rejected r.word ++ "[símbolo '" ++ c.toString ++
      "' não possui transição a partir do estado '" ++ r.name s ++ "']"
  | some (.notFinal s) =>
    rejected r.word ++ "[caminho " ++ r.path ++ ", " ++ r.name s ++ " não é final]"

def fileText (r : Report) : String := "Word: " ++ r.word ++ "\nPath: " ++ r.path

/-- What is written where at most `room` bytes can be. -/
def writeWithin (r : Report) (room : Option Nat) : Except StorageFault String :=
  if Text.fits room r.fileText then .ok r.fileText else .error .full

/-! ## Files -/

inductive Place
  /-- There is no directory for it. -/
  | nowhere
  | free
  | taken (content : String)
deriving DecidableEq

def Place.content? : Place → Option String
  | nowhere => none
  | free => none
  | taken content => some content

/-- Whether the path was written, and the place afterwards. -/
def save (r : Report) (place : Place) : Except StorageFault (Bool × Place) :=
  if r.run.accepted then
    match place with
    | .nowhere => .error .notFound
    | _ => .ok (true, .taken r.fileText)
  else .ok (false, place)

end Report

end Recognizer
