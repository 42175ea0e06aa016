/-
  TypedDoc.Proofs.Document.RoundTrip — documents written and read again by one codec.

  Of the codec nothing is known but that what it packs begins as a member does and inflates
  to what was packed, whatever comes behind it. A document that was written is read again as
  it was collapsed, in the envelope it was written in; neither the envelope nor the codec nor
  its level show in anything else (`read_of_write`).
-/

import TypedDoc.Proofs.Document.Member
import TypedDoc.Proofs.Document.Write

namespace TypedDoc.Document

open Wire

variable {level n : Nat} {d d' : Document} {envelope : Envelope} {k : Sink}

/-- Without an envelope, what was written is read as it was collapsed. -/
theorem value_readPlain_bytes (h : d.Encodable) :
    (readPlain .standard).value (.ofBytes d.bytes) = .ok { d.collapse with envelope := .plain } := by
  have hflat : (Supply.ofBytes d.bytes).pieces.flatten = d.spell.bytes ++ [] := by
    rw [Supply.flatten_ofBytes, bytes_spell, List.append_nil]
  obtain ⟨s', hr, -⟩ := takes_readPlain (Registry.kindOf_standard .object) (fits_spell h) _ [] hflat
  rw [← document_spell h]
  exact value_ok.2 ⟨s', hr⟩

/-- What was written in an envelope is read again, whatever comes behind it. -/
theorem readBy_wrapBy (codec : Gzip.Lossless) (level : Nat) (h : d.Encodable) (envelope : Envelope) (trailing : List UInt8) :
    Envelope.detect (envelope.wrapBy codec level d.bytes ++ trailing) = envelope ∧
      readBy codec .standard (.ofBytes (envelope.wrapBy codec level d.bytes ++ trailing)) = .ok { d.collapse with envelope } := by
  cases envelope with
  | plain =>
    have hdetect : Envelope.detect (Envelope.plain.wrapBy codec level d.bytes ++ trailing) = .plain := rfl
    refine ⟨hdetect, ?_⟩
    rw [← document_spell h]
    refine @readBy_of_spelling _ _ (fits_spell h) _ _ trailing ((Envelope.sniff_ofBytes _).trans (congrArg Except.ok hdetect)) ?_
    rw [bytes_spell]
    exact Supply.flatten_ofBytes _
  | gzip =>
    have hm := codec.begins (min level Gzip.maxLevel) d.bytes
    refine ⟨Envelope.detect_eq_gzip.2 (hm.trans (List.prefix_append _ _)), ?_⟩
    unfold Envelope.wrapBy
    rw [read_of_drain codec hm (codec.inflates _ _) trailing, value_readPlain_bytes h]
    rfl

theorem unfinished_wrapBy (codec : Gzip.Conforming) (level : Nat) (d : Document) (envelope : Envelope) :
    Gzip.unfinished (envelope.wrapBy codec level d.bytes) = false := by
  cases envelope with
  | plain =>
    cases hu : Gzip.unfinished (Envelope.plain.wrapBy codec level d.bytes) with
    | false => rfl
    | true =>
      have hgzip := Envelope.detect_eq_gzip.2 (Gzip.magic_of_unfinished hu)
      have hplain : Envelope.detect (Envelope.plain.wrapBy codec level d.bytes) = .plain := rfl
      rw [hplain] at hgzip
      cases hgzip
  | gzip =>
    refine codec.unfinished_pack (min level Gzip.maxLevel) ?_
    rw [← bytes_spell d]
    exact bytes_ne_nil _

/-- A document that was written, read again with anything behind it: the envelope is the one
    it was written in, the header and the names are those of the document, the tree is what
    is left of its tree, and nothing is marked. Written and read in any other way it is the
    same but for the envelope. -/
theorem read_of_write {codec : Gzip.Lossless} (h : d.writeBy codec level envelope Sink.unlimited = (d', .ok n k)) :
    ∃ r : Document, r.envelope = envelope ∧ r.header = d.header ∧ r.rootName = d.rootName ∧
      r.root.payload = d.root.payload.collapse ∧ r.clear = r ∧
      (∀ trailing, Envelope.detect (k.written.toList ++ trailing) = envelope ∧
        readBy codec .standard (.ofBytes (k.written.toList ++ trailing)) = .ok r) ∧
      ∀ (codec' : Gzip.Lossless) level' envelope', ∃ k', d.writeBy codec' level' envelope' Sink.unlimited = (d', .ok n k') ∧
        ∀ trailing, Envelope.detect (k'.written.toList ++ trailing) = envelope' ∧
          readBy codec' .standard (.ofBytes (k'.written.toList ++ trailing)) = .ok { r with envelope := envelope' } := by
  have he := (writeBy_ok h).1
  rw [writeBy_unlimited codec level he] at h
  cases h
  have hclear : ({ d.collapse with envelope } : Document).clear = { d.collapse with envelope } := by
    rw [← document_spell he]
    exact congrArg (fun d : Document => { d with envelope }) (clear_document (fits_spell he))
  refine ⟨{ d.collapse with envelope }, rfl, rfl, rfl, rfl, hclear, readBy_wrapBy codec level he envelope,
    fun codec' level' envelope' => ⟨_, writeBy_unlimited codec' level' he envelope', ?_⟩⟩
  exact readBy_wrapBy codec' level' he envelope'

/-- Two children of one name, packed, with a byte behind the member. -/
theorem read_of_write_renamed :
    let d : Document := ⟨⟨.utf16, 7⟩, "r", [("a", ⟨some "n", .scalar (.byte 1), true⟩), ("b", ⟨some "n", .scalar (.byte 2), true⟩)],
      true, .plain⟩
    let r : Document := ⟨⟨.utf16, 7⟩, "r", [("n", ⟨some "n", .scalar (.byte 2), false⟩)], false, .gzip⟩
    ∃ n k, d.write .gzip .unlimited = (d.clear, .ok n k) ∧ ofBytes (k.written.toList ++ [0]) = .ok r := by
  intro d r
  have henc : d.encode = (d.clear, .ok d.bytes) := by cbv
  have h := writeBy_unlimited Gzip.Lossless.stored Gzip.defaultLevel (encode_ok henc).1 .gzip
  obtain ⟨⟨header, rootName, entries, modified, envelope⟩, rfl, rfl, rfl, hroot, hclear, hread, -⟩ := read_of_write h
  have hentries : entries = r.entries := Payload.object.inj hroot
  have hmodified : modified = false := (congrArg Document.modified hclear).symm
  refine ⟨_, _, h, ?_⟩
  rw [hentries, hmodified] at hread
  exact (hread [0]).2

end TypedDoc.Document
