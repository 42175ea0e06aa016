/-
  TypedDoc.Host.Faults — the failures that a place for documents was told to show, and how
  its streams behave.

  A commit can fail before anything shows, and that of a file also afterwards: the file has
  its path by then, but the folder could not be brought up to date.
-/

import TypedDoc.Error

namespace TypedDoc.Host

structure Faults where
  openRead : Option Error
  openWrite : Option Error
  flush : Option Error
  /-- What a commit answers before anything shows. -/
  commit : Option Error
  /-- How many bytes a new content may have. -/
  room : Option Nat
  /-- Where reading breaks off, and with what. -/
  cut : Option (Nat × Error)
  /-- The most bytes one read gives. -/
  chunk : Option Nat
  /-- What the commit of a file answers once it shows. -/
  settle : Option Error := none
  deriving DecidableEq, Repr

def Faults.none : Faults := ⟨.none, .none, .none, .none, .none, .none, .none, .none⟩

end TypedDoc.Host
