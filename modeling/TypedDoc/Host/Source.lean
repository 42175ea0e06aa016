/-
  TypedDoc.Host.Source — where the bytes of a document live, a cell in memory or a file,
  and how they are replaced.

  A replacement is a draft: it is opened, written to, and then committed or discarded, and
  only a commit shows. The draft of a file is a file of its own beside it, which a commit
  renames; a discard takes it away, and so does a commit that fails, before it renamed the
  file or afterwards. Two drafts of one file share it.

  Bytes for a file are held back until there are too many, or until a flush, a commit or a
  discard. They go to it at the offset the draft has come to, whatever became of the file.
-/

import TypedDoc.Host.Cell
import TypedDoc.Host.Directory
import TypedDoc.Value.Entries

namespace TypedDoc

open Wire Host

/-- All places a source can be in. -/
structure Host where
  cells : List (String × Cell)
  directory : Directory

inductive Source where
  | cell (name : String)
  | file (path : FilePath)
  deriving DecidableEq, Repr

/-- What a draft will replace. -/
inductive Goal where
  | cell (name : String)
  | file (draft path : FilePath) (id : Nat)
  deriving DecidableEq, Repr

/-- A replacement that does not show yet. -/
structure Draft where
  goal : Goal
  /-- All that was accepted. -/
  sink : Sink
  /-- How many bytes of it have gone to the file. -/
  passed : Nat

/-- What a step makes of the host, also when it fails. -/
abbrev Hosted := EStateM Error Host

/-- What a step makes of a draft and the host it is in. -/
abbrev Drafting := EStateM Error (Draft × Host)

namespace Host

/-- A cell nobody has made behaves as one without content. -/
def cell (h : Host) (name : String) : Cell := (h.cells.lookup name).getD (.memory none)

def setCell (h : Host) (name : String) (c : Cell) : Host := { h with cells := Entries.put name c h.cells }

/-- A change to the directory, which may be refused. -/
def onDirectory (change : Directory → Except Error Directory) : Hosted Unit := fun h =>
  match change h.directory with
  | .error e => .error e h
  | .ok directory => .ok () { h with directory }

end Host

namespace Source

/-- The file for a document: the path gets the extension of documents. -/
def ofPath (p : FilePath) : Source := .file p.ofDocument

/-- There is something to read, or a folder in its place. -/
def occupied (s : Source) (h : Host) : Bool :=
  match s with
  | .cell name => (h.cell name).content.isSome
  | .file p => h.directory.occupied p

def openRead (s : Source) (h : Host) : Except Error Supply :=
  match s with
  | .cell name => (h.cell name).openRead
  | .file p => h.directory.openRead p

def openWrite (s : Source) : Hosted Draft := fun h =>
  match s with
  | .cell name =>
    match (h.cell name).openWrite with
    | .error e => .error e h
    | .ok sink => .ok ⟨.cell name, sink, 0⟩ h
  | .file p =>
    match h.directory.create p.ofDraft with
    | .error e => .error e h
    | .ok (id, d) => .ok ⟨.file p.ofDraft p id, .unlimited, 0⟩ { h with directory := d }

end Source

namespace Draft

/-! ## Writing -/

/-- The most bytes that are held back. -/
def capacity : Nat := 8192

def written (w : Draft) : List UInt8 := w.sink.written.toList

def held (w : Draft) : List UInt8 := w.written.drop w.passed

/-- Accepts bytes, and holds them back. -/
def hold (bs : List UInt8) (w : Draft) : Draft := { w with sink := { w.sink with written := w.sink.written ++ bs } }

/-- Gives up what is held back. -/
def release (w : Draft) : Draft := { w with sink := { w.sink with written := (w.written.take w.passed).toArray } }

/-- What is held back goes to the file, as far as there is room. -/
def pass (id : Nat) : Draft × Host → Draft × Host
  | (w, h) =>
    let bs := w.held.take (h.directory.space w.passed w.held.length)
    ({ w with passed := w.passed + bs.length }, { h with directory := h.directory.overlay id w.passed bs })

/-- All that is held back goes to the file. -/
def passAll (id : Nat) : Drafting Unit := fun st =>
  let (w, h) := pass id st
  if w.held = [] then .ok () (w, h) else .error w.sink.full (w, h)

/-- Bytes that are too many to be held back go to the file at once. What of them does not
    is held back, unless it is too much or there was no room for any. -/
def putThrough (id : Nat) (bs : List UInt8) : Drafting Unit := fun (w, h) =>
  if bs.length < capacity then .ok () (w.hold bs, h)
  else
    let (w', h') := pass id (w.hold bs, h)
    if w'.held = [] ∨ w.passed < w'.passed ∧ w'.held.length < capacity then .ok () (w', h')
    else .error w.sink.full (w'.release, h')

/-- Bytes that do not fit beside those held back push them to the file first. -/
def putFile (id : Nat) (bs : List UInt8) : Drafting Unit := fun st =>
  let spare := capacity - st.1.held.length
  if bs.length < spare then .ok () (st.1.hold bs, st.2)
  else if spare < bs.length then (do passAll id; putThrough id bs) st
  else putThrough id bs st

/-- A step that concerns the sink alone. -/
def onSink (m : Encoder Unit) : Drafting Unit := fun (w, h) =>
  match m w.sink with
  | .ok _ sink => .ok () ({ w with sink }, h)
  | .error e sink => .error e ({ w with sink }, h)

def put (bs : List UInt8) : Drafting Unit := do
  let (w, _) ← get
  match w.goal with
  | .cell _ => onSink (Wire.put bs)
  | .file _ _ id => putFile id bs

/-- Fails if there is a fault. -/
def raise : Option Error → Drafting Unit
  | none => return ()
  | some e => throw e

def flushFile (id : Nat) : Drafting Unit := do
  passAll id
  let (_, h) ← get
  raise h.directory.faults.flush

def flush : Drafting Unit := do
  let (w, _) ← get
  match w.goal with
  | .cell _ => onSink Wire.flush
  | .file _ _ id => flushFile id

instance : Writer (Draft × Host) := ⟨put, flush⟩

/-! ## The end of a draft -/

/-- Takes the file of the draft away. -/
def remove (w : Draft) (h : Host) : Host :=
  match w.goal with
  | .cell _ => h
  | .file draft _ _ => { h with directory := h.directory.unlink draft }

/-- Makes what was written the content: that of a cell, or as the file that gets the path. -/
def publish (w : Draft) : Hosted Unit := fun h =>
  match w.goal with
  | .cell name =>
    match (h.cell name).commit w.written with
    | .error e => .error e h
    | .ok c => .ok () (h.setCell name c)
  | .file draft p id =>
    match passAll id (w, h) with
    | .error e (_, h) => .error e h
    | .ok _ (_, h) => onDirectory (·.persist draft p) h

/-- What bringing the folder of a file up to date answers, if it fails. -/
def settleFault (w : Draft) (h : Host) : Option Error :=
  match w.goal with
  | .cell _ => none
  | .file _ p _ => if p.hasFolder then h.directory.faults.settle else none

def commit (w : Draft) : Hosted Unit := fun h =>
  match w.publish h with
  | .error e h => .error e (w.remove h)
  | .ok _ h =>
    match w.settleFault h with
    | none => .ok () h
    | some e => .error e (w.remove h)

/-- Gives the draft up. What was held back goes to its file all the same. -/
def discard (w : Draft) (h : Host) : Host :=
  match w.goal with
  | .cell _ => h
  | .file _ _ id => w.remove (pass id (w, h)).2

end Draft

end TypedDoc
