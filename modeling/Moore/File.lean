/-
# Files

Where definitions and settings are read from.  Reading a file gives its text or a fault; a
fault is told to the user in one sentence, or shown as a value where the program stops
before it has started.
-/

namespace Moore

/-- Why a file cannot be read. -/
structure FileFault where
  message : String
  /-- The fault shown as a value. -/
  shown : String
  deriving DecidableEq, Repr

namespace FileFault

/-- A fault that the operating system reports under a number. -/
def ofSystem (number : Nat) (kind text : String) : FileFault where
  message := s!"{text} (os error {number})"
  shown := s!"Os \x7b code: {number}, kind: {kind}, message: \"{text}\" \x7d"

/-- A fault of the text of a file, or of its name. -/
def ofContent (kind text : String) : FileFault where
  message := text
  shown := s!"Error \x7b kind: {kind}, message: \"{text}\" \x7d"

def missing : FileFault := ofSystem 2 "NotFound" "No such file or directory"

def denied : FileFault := ofSystem 13 "PermissionDenied" "Permission denied"

def notDirectory : FileFault := ofSystem 20 "NotADirectory" "Not a directory"

def isDirectory : FileFault := ofSystem 21 "IsADirectory" "Is a directory"

/-- The bytes of the file are no text. -/
def notText : FileFault := ofContent "InvalidData" "stream did not contain valid UTF-8"

end FileFault

/-- The files that a program can read, by their paths. -/
abbrev Files := String → Except FileFault String

end Moore
