/-
  TypedDoc.Proofs.Store.Calls — what one call of a store can do, whatever codec makes and
  reads the members.

  Each way a call can go is a case of `Reads` or `Wrote`, with all that was found on the
  way; `readBy_reads` and `writeBy_wrote` say that there is no other. Whatever holds of every
  call is proved from these cases. A document is written into a draft that nobody else knows
  of (`begun_left`).
-/

import TypedDoc.Proofs.Document.Write
import TypedDoc.Proofs.Host.Begun
import TypedDoc.Store

namespace TypedDoc

open Wire

/-- What the bytes of a document are written as. -/
def Config.wrapBy (codec : Gzip.Codec) (c : Config) (bs : List UInt8) : List UInt8 :=
  c.envelope.wrapBy codec c.gzipLevel.toNat bs

namespace Store

/-- What a store does with its source. -/
inductive Call where
  | read (force : Bool)
  | write (force : Bool)
  deriving DecidableEq, Repr

def callBy (codec : Gzip.Codec) (c : Call) (h : Host) (s : Store) : Store × EStateM.Result Error Host Bool :=
  match c with
  | .read force =>
    match s.readBy codec force h with
    | (s, .ok b) => (s, .ok b h)
    | (s, .error e) => (s, .error e h)
  | .write force => s.writeBy codec force h

/-- Changes the root object of the document, if there is one. -/
def edit {α : Type} (f : List (String × Value) → List (String × Value) × α) (s : Store) : Store :=
  { s with document := s.document.map fun d => (d.editEntries f).1 }

/-! ## Reading -/

inductive Reads (codec : Gzip.Codec) (force : Bool) (s : Store) (h : Host) : Store → Except Error Bool → Prop
  | skipped : force = false → s.isOpen = true → Reads codec force s h s (.ok false)
  | failed (e : Error) : Reads codec force s h s (.error e)
  | taken {stream : Supply} {d : Document} : s.source.openRead h = .ok stream →
      Document.readBy codec s.registry stream = .ok d → Reads codec force s h { s with document := some d } (.ok true)

theorem readBy_reads (codec : Gzip.Codec) (force : Bool) (s : Store) (h : Host) :
    Reads codec force s h (s.readBy codec force h).1 (s.readBy codec force h).2 := by
  unfold readBy
  split
  · rename_i hskip
    rw [Bool.and_eq_true, Bool.not_eq_true'] at hskip
    exact .skipped hskip.1 hskip.2
  · split
    · exact .failed _
    · rename_i d hr
      cases ho : s.source.openRead h with
      | error e => rw [ho] at hr; cases hr
      | ok stream => rw [ho] at hr; exact .taken ho hr

/-! ## Writing -/

inductive Wrote (codec : Gzip.Codec) (force : Bool) (s : Store) (h : Host) :
    Store → EStateM.Result Error Host Bool → Prop
  | absent : s.document = none → Wrote codec force s h s (.error .noHeaderOrRoot h)
  | skipped {d : Document} : s.document = some d → force = false → d.modified = false →
      Wrote codec force s h s (.ok false h)
  | refused {d : Document} {e : Error} {h' : Host} : s.document = some d → s.source.openWrite h = .error e h' →
      Wrote codec force s h s (.error e h')
  | unwritten {d d' : Document} {w : Draft} {h' : Host} {e : Error} : s.document = some d → s.source.Begun h w h' →
      d'.clear = d.clear → (d.modified = true → d'.modified = true) →
      Wrote codec force s h { s with document := some d' } (.error e (w.discard h'))
  | uncommitted {d : Document} {w : Draft} {h' h'' : Host} {e : Error} : s.document = some d → d.Encodable →
      s.source.Begun h w h' → w.written = s.config.wrapBy codec d.bytes → w.commit h' = .error e h'' →
      Wrote codec force s h { s with document := some d.clear.markModified } (.error e h'')
  | written {d : Document} {w : Draft} {h' h'' : Host} : s.document = some d → d.Encodable → s.source.Begun h w h' →
      w.written = s.config.wrapBy codec d.bytes → w.commit h' = .ok () h'' →
      Wrote codec force s h { s with document := some { d.clear with envelope := s.config.envelope } } (.ok true h'')

variable {s : Store} {h h' : Host} {w : Draft}

/-- Whatever comes of writing, the draft is all there is to it. -/
theorem begun_left (ho : s.source.openWrite h = .ok w h') (codec : Gzip.Codec) (level : Nat) (envelope : Envelope)
    (bs : List UInt8) : s.source.Begun h (left (envelope.writeBy codec level bs (w, h'))).1
      (left (envelope.writeBy codec level bs (w, h'))).2 := by
  have hb := Source.begun_openWrite ho
  obtain ⟨cs, g⟩ := Draft.goes_put_flush (w, h') hb.of.1 (envelope.wrapBy codec level bs)
  exact hb.goes g

theorem writeBy_wrote (codec : Gzip.Codec) (force : Bool) (s : Store) (h : Host) :
    Wrote codec force s h (s.writeBy codec force h).1 (s.writeBy codec force h).2 := by
  unfold writeBy
  split
  · rename_i hd; exact .absent hd
  · rename_i d hd
    split
    · rename_i hskip
      rw [Bool.and_eq_true, Bool.not_eq_true', Bool.not_eq_true'] at hskip
      exact .skipped hd hskip.1 hskip.2
    · split
      · rename_i ho; exact .refused hd ho
      · rename_i w h' ho
        have hleft := begun_left ho codec s.config.gzipLevel.toNat s.config.envelope d.bytes
        split
        · rename_i d' e w' h'' hw
          obtain ⟨hc, hm, hst⟩ := Document.writeBy_error hw
          refine .unwritten hd ?_ hc hm
          rcases hst with hst | hst
          · cases hst
            exact Source.begun_openWrite ho
          · rw [hst] at hleft
            exact hleft
        · rename_i d' n w' h'' hw
          obtain ⟨he, rfl, hst⟩ := Document.writeBy_ok hw
          rw [hst] at hleft
          have hwritten := Draft.written_put_flush hst
          rw [(Source.openWrite_ok ho).2.1, List.nil_append] at hwritten
          split
          · rename_i hc; exact .uncommitted hd he hleft hwritten hc
          · rename_i hc; exact .written hd he hleft hwritten hc

end Store

end TypedDoc
