import Fingerprint.Text.Blank

/-!
# How texts are read

The way of reading texts is chosen by one setting of the process. It never changes a digest.
-/

namespace Fingerprint
set_option autoImplicit false

inductive Preference where
  | auto
  | generic
deriving DecidableEq

/-- How texts are read: by their storage form, or unit by unit. -/
inductive Strategy where
  | direct
  | generic
deriving DecidableEq

namespace Preference

def name : Preference → String
  | auto => "auto"
  | generic => "generic"

def keywords : List (String × Preference) :=
  [("auto", auto), ("direct", auto), ("generic", generic), ("chars", generic)]

/-- Reads a setting, blank ends and the case of ASCII letters aside. -/
def ofString? (setting : String) : Option Preference :=
  keywords.lookup (String.ofList ((trimBlank setting.toList).map Char.toLower))

def strategy : Preference → Strategy
  | auto => .direct
  | generic => .generic

end Preference

namespace Strategy

def name : Strategy → String
  | direct => "direct"
  | generic => "generic"

end Strategy

/-- The setting and what it resolved to. -/
structure Settings where
  requested : Preference
  strategy : Strategy
deriving DecidableEq

namespace Settings

def variableName : String := "ZAHASH_TEXT_ACCESS_FORCE"

def ofPreference (p : Preference) : Settings := ⟨p, p.strategy⟩

def default : Settings := ofPreference .auto

/-- The settings of a process whose variable has these bytes, or is unset. Bytes that are not UTF-8
and words that mean nothing count as unset. -/
def ofVariable (bytes : Option ByteArray) : Settings :=
  let preference := do Preference.ofString? (← String.fromUTF8? (← bytes))
  ofPreference (preference.getD .auto)

end Settings

end Fingerprint
