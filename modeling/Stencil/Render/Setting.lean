/-
# `Stencil.Render.Setting` — the step limit as a setting

Where nobody states a step limit, the environment may.  Its setting is a text: blank
for no limit, and else an integer.
-/
import Stencil.Render.Machine

namespace Stencil

inductive SettingError where
  | malformed (text : String)
  | tooManyDigits (e : TooManyDigits)
deriving DecidableEq, Repr

namespace SettingError

/-- The most characters of a malformed setting that a message shows, quotes included. -/
def shownLimit : Nat := 200

def message : SettingError → String
  | malformed text =>
    "invalid literal for int() with base 10: " ++
      String.ofList ((Quoted.ofText text).toList.take shownLimit)
  | tooManyDigits e => e.message

end SettingError

namespace Limits

def strip (text : String) : String :=
  String.ofList ((text.toList.dropWhile CharClass.isSpace).reverse.dropWhile CharClass.isSpace).reverse

/-- The limits that a setting states, if there is one. -/
def ofSetting (setting : Option String) : Except SettingError Limits :=
  let text := strip (setting.getD "")
  if text.isEmpty then .ok unbounded
  else match Integer.read text with
  | .ok limit => .ok ⟨some limit⟩
  | .error .malformed => .error (.malformed text)
  | .error (.tooManyDigits e) => .error (.tooManyDigits e)

end Limits

end Stencil
