/-
  TypedDoc.Store — a document, once it has been read or made, and the source it belongs
  to.

  Reading takes the document from the source, and does nothing if there is one already,
  unless forced. Writing puts it there, and does nothing if the root is not modified,
  unless forced. The source is opened before the document is encoded, and shows the new
  content only after all of it was written.

  A failure to read keeps the document there was. A failure to write keeps the source and
  leaves the root modified if it was; after one of the commit it is modified in any case.

  Members are made and read by a codec; `write` and `read` are those of `Gzip.Codec.stored`.
-/

import TypedDoc.Config
import TypedDoc.Document
import TypedDoc.Host.Source

namespace TypedDoc

structure Store where
  source : Source
  config : Config
  registry : Registry
  document : Option Document

namespace Store

/-- A store that has read nothing yet. -/
def ofSource (source : Source) (config : Config) (registry : Registry) : Except Error Store := do
  return ⟨source, ← config.validated, registry, none⟩

/-- A store with an empty document that was never written. -/
def fresh (source : Source) (config : Config) (registry : Registry) : Except Error Store := do
  let config ← config.validated
  return ⟨source, config, registry, some { Document.ofHeader config.header with envelope := config.envelope }⟩

def isOpen (s : Store) : Bool := s.document.isSome

/-- Whether a document was read, and the store afterwards. -/
def readBy (codec : Gzip.Codec) (force : Bool) (h : Host) (s : Store) : Store × Except Error Bool :=
  if !force && s.isOpen then (s, .ok false)
  else
    match s.source.openRead h >>= Document.readBy codec s.registry with
    | .error e => (s, .error e)
    | .ok d => ({ s with document := some d }, .ok true)

/-- Whether the document was written, and the store and the host afterwards. -/
def writeBy (codec : Gzip.Codec) (force : Bool) (h : Host) (s : Store) : Store × EStateM.Result Error Host Bool :=
  match s.document with
  | none => (s, .error .noHeaderOrRoot h)
  | some d =>
    if !force && !d.modified then (s, .ok false h)
    else
      match s.source.openWrite h with
      | .error e h => (s, .error e h)
      | .ok draft h =>
        match d.writeBy codec s.config.gzipLevel.toNat s.config.envelope (draft, h) with
        | (d, .error e (draft, h)) => ({ s with document := some d }, .error e (draft.discard h))
        | (d, .ok _ (draft, h)) =>
          match draft.commit h with
          | .error e h => ({ s with document := some d.markModified }, .error e h)
          | .ok _ h => ({ s with document := some { d with envelope := s.config.envelope } }, .ok true h)

def read (force : Bool) (h : Host) (s : Store) : Store × Except Error Bool := s.readBy .stored force h

def write (force : Bool) (h : Host) (s : Store) : Store × EStateM.Result Error Host Bool := s.writeBy .stored force h

/-- Takes the document out. -/
def close (s : Store) : Store × Option Document := ({ s with document := none }, s.document)

end Store

end TypedDoc
