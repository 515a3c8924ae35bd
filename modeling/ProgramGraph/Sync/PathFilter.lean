import ProgramGraph.File.Path
import ProgramGraph.Settings.Sync

set_option autoImplicit false

/-! # Files that count

Which of the files below a watched directory are source files: those with a watched extension
that stand in no hidden and in no ignored directory. What leads to the watched directory
itself does not matter.
-/

namespace ProgramGraph.SyncSettings

/-- The extension of a path is watched, in any case of ASCII letters. -/
def watches (s : SyncSettings) (path : FilePath) : Bool :=
  path.extension?.any fun ext =>
    (s.watchedExtensions.map Text.lowerAscii).contains ("." ++ Text.lowerAscii ext)

/-- A component leads to files that count. -/
def enters (s : SyncSettings) (component : String) : Bool :=
  !FilePath.isName component ||
    (component.toList.head? != some '.' && !s.ignoredDirs.contains component)

/-- The file at a path below a root counts. -/
def accepts (s : SyncSettings) (path root : FilePath) : Bool :=
  s.watches path && (path.below root).all s.enters

end ProgramGraph.SyncSettings
