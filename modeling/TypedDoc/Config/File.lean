/-
  TypedDoc.Config.File — configurations in files of a directory.
-/

import TypedDoc.Config
import TypedDoc.Host.Directory

namespace TypedDoc.Config

open Host

def ofFile (d : Directory) (p : FilePath) : Except Error Config := do
  ofText (← d.readText p)

def save (c : Config) (d : Directory) (p : FilePath) : Except Error Directory :=
  d.writeFile p (Text.Utf8.encode c.toText)

/-- Writes the standard configuration, with its comments, where there is nothing yet. -/
def saveStandardIfMissing (d : Directory) (p : FilePath) : Except Error Directory :=
  if d.occupied p then .ok d else d.writeFile p (Text.Utf8.encode standardText)

end TypedDoc.Config
