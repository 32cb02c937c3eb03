/-!
Paths of directories as they are written on a command line. Two paths that differ in empty parts or single dots
only lead to the same place, and the empty path leads to the current directory.
-/

namespace ChunkSort.CommandLine

structure Path where
  fromRoot : Bool
  names : List String
  deriving DecidableEq

namespace Path

def ofString (text : String) : Path where
  fromRoot := text.toList.head? = some '/'
  names := (text.splitOn "/").filter fun name => name ≠ "" ∧ name ≠ "."

def toString (p : Path) : String := (if p.fromRoot then "/" else "./") ++ "/".intercalate p.names

end Path
end ChunkSort.CommandLine
