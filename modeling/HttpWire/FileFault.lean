/-!
# Why a file could not be read

The capture and the settings of a run are read from files. A `FileFault` is the cause for which one
of them could not be read, in the wording of the operating system.
-/

set_option autoImplicit false

namespace HttpWire

/-- The cause for which a file could not be read. -/
inductive FileFault where
  /-- There is no such file. -/
  | missing
  /-- The path leads through something that is no directory. -/
  | notDirectory
  /-- The path leads to a directory. -/
  | isDirectory
  /-- The file was to hold text and is not UTF-8. -/
  | notText
  /-- Any other cause, as the operating system words it. -/
  | other (wording : String)
  deriving Repr, DecidableEq

/-- The wording of a cause. -/
def FileFault.message : FileFault → String
  | missing => "No such file or directory (os error 2)"
  | notDirectory => "Not a directory (os error 20)"
  | isDirectory => "Is a directory (os error 21)"
  | notText => "stream did not contain valid UTF-8"
  | other wording => wording

end HttpWire
