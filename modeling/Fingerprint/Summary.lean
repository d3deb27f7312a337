import Fingerprint.Algorithm
import Fingerprint.Text.Settings
import Fingerprint.Word.Order

/-!
# Summary of a process

One line that names the byte order, the settings for texts, and the functions.
-/

namespace Fingerprint
set_option autoImplicit false

structure Summary where
  native : ByteOrder
  settings : Settings
  functions : List String

namespace Summary

def ofSettings (settings : Settings) : Summary := ⟨.native, settings, Algorithm.allNames⟩

def render (s : Summary) : String :=
  "native=" ++ s.native.name ++ " text=" ++ s.settings.strategy.name ++
    " (requested " ++ s.settings.requested.name ++ ") functions=" ++
    String.intercalate "," s.functions

end Summary

end Fingerprint
