/-
  TypedDoc.Proofs.Document.Marks — what is left of a document's flags when it could not be
  encoded or written.

  Nodes are cleared one by one as they are encoded, and only the root is marked again when
  the stream fails. So a failure takes the flags of the nodes below the root that were
  encoded in full before it, and of no others (`marks_of_error`). A change below the root
  can lose its mark that way, though nothing of it was kept (`marks_lost`).
-/

import TypedDoc.Proofs.Document.Write
import TypedDoc.Proofs.Value.Marks

namespace TypedDoc

open Wire

namespace Document

/-- For each node below the root, whether all up to its end was encoded. -/
def finished (d : Document) : List Bool :=
  ((Payload.object d.entries).ends d.header.charset).map fun l =>
    decide (d.root.depth ≤ maxDepth) && (d.preambleLayout.andThen l).flaw.isNone

theorem length_finished (d : Document) : d.finished.length = d.root.payload.flags.length := by
  unfold finished
  rw [List.length_map, ((Payload.object d.entries).tracks d.header.charset).length]
  rfl

/-! ## Encoding -/

/-- What an attempt to encode makes of the flags below the root, whatever comes of it. -/
theorem flags_encode (d : Document) : d.encode.1.root.payload.flags = clearedBy d.finished d.root.payload.flags := by
  by_cases hn : Counted d.header.charset d.rootName
  · have hpreamble := preambleLayout_flaw.2 hn
    have hv := d.root.payload_flags_encode d.header.charset (.holding d.preambleBytes)
    have hsame := d.root.clearModified_encode d.header.charset (.holding d.preambleBytes)
    have hfinished : d.finished = (d.root.payload.ends d.header.charset).map fun l =>
        decide (d.root.depth ≤ maxDepth) && l.fits (.holding d.preambleBytes) := by
      unfold finished
      simp only [Layout.andThen, hpreamble, Layout.fits_holding]
      rfl
    have hencode : d.encode.1 = d.updateRoot (d.root.encode d.header.charset (.holding d.preambleBytes)).1 := by
      unfold encode
      simp only [preamble_ok hn]
      rcases d.root.encode d.header.charset (.holding d.preambleBytes) with ⟨v, _ | _⟩ <;> rfl
    rw [hencode, payload_updateRoot hsame, hv, hfinished]
  · obtain ⟨e, k, hp⟩ := preamble_error hn
    have hencode : d.encode.1 = d := by
      unfold encode
      simp only [hp]
    rw [hencode, clearedBy_false d.length_finished]
    intro done hdone
    obtain ⟨l, -, rfl⟩ := List.mem_map.1 hdone
    cases hf : d.preambleLayout.flaw with
    | none => exact absurd (preambleLayout_flaw.1 hf) hn
    | some e => simp only [Layout.andThen, hf, Option.isNone_some, Bool.and_false]

theorem keeps_of_encode {d d' : Document} (hpayload : d'.root.payload.flags = d.encode.1.root.payload.flags)
    (hroot : d.modified = true → d'.modified = true) :
    Keeps d.root.flags d'.root.flags ↔ NoneSet d.finished d.root.payload.flags := by
  rw [Value.flags_eq, Value.flags_eq d'.root, keeps_concat, hpayload, d.flags_encode, (keeps_clearedBy d.length_finished).1]
  exact and_iff_left hroot

/-! ## Failures -/

/-- A failure to encode a value clears the flags of the nodes that were written in full, so
    it leaves the flags as they were exactly if none of these was set. A failure to encode a
    document, or to write it, takes no mark away exactly if none of the nodes below the root
    that were encoded in full was set; the root keeps its own. -/
theorem marks_of_error (c : Charset) (v : Value) (k : Sink) (d : Document) (envelope : Envelope) :
    (∀ v' e k', v.encode c k = (v', .error e k') →
      v'.flags = clearedBy (v.finished c k) v.flags ∧ (v'.flags = v.flags ↔ NoneSet (v.finished c k) v.flags)) ∧
      (∀ d' e, d.encode = (d', .error e) → (d.modified = true → d'.modified = true) ∧
        (Keeps d.root.flags d'.root.flags ↔ NoneSet d.finished d.root.payload.flags)) ∧
      ∀ {σ : Type} [Writer σ] (codec : Gzip.Codec) (level : Nat) (out out' : σ) d' e,
        d.writeBy codec level envelope out = (d', .error e out') → (d.modified = true → d'.modified = true) ∧
        (Keeps d.root.flags d'.root.flags ↔ NoneSet d.finished d.root.payload.flags) := by
  refine ⟨fun v' e k' h => ?_, fun d' e h => ?_, fun codec level out out' d' e h => ?_⟩
  · have hflags := v.flags_encode c k
    rw [h] at hflags
    exact ⟨hflags, hflags ▸ (keeps_clearedBy (v.length_finished c k)).2⟩
  · obtain ⟨-, -, hmodified⟩ := encode_error h
    have hroot : d.modified = true → d'.modified = true := fun hd => hmodified.trans hd
    exact ⟨hroot, keeps_of_encode (by rw [h]) hroot⟩
  · have hroot := (writeBy_error h).2.1
    refine ⟨hroot, keeps_of_encode ?_ hroot⟩
    -- Whether encoding failed or the stream did, below the root nothing is done but encoding.
    unfold writeBy at h
    split at h
    · rename_i henc
      cases h
      rw [henc]
    · rename_i henc
      split at h
      · cases h
      · cases h
        rw [henc]
        rfl

/-- An unmarked child in front of one that cannot be encoded, and an unmarked child in a
    document that does not fit the sink: every mark is kept. -/
theorem marks_kept :
    let a : Value := ⟨some "a", .scalar (.boolean true), false⟩
    let b : Value := ⟨some "b", .scalar (.timestamp .empty), true⟩
    let d : Document := ⟨.standard, "", [("a", a), ("b", b)], true, .plain⟩
    let d' : Document := ⟨.standard, "", [("a", a)], true, .plain⟩
    ((d.root.encode .utf8 .unlimited).1.flags = d.root.flags ∧ Keeps d.root.flags d.encode.1.root.flags) ∧
      Keeps d'.root.flags (d'.write .plain (.limited (some 3))).1.root.flags := by
  intro a b d d'
  have hv : d.root.encode .utf8 .unlimited = (d.root, .error (.malformedTimestamp .nothingToEncode)
      (.holding [3, 0, 0, 0, 1, 97, 1, 10, 0, 0, 0, 1, 98])) := by cbv
  have hd : d.encode = (d, .error (.malformedTimestamp .nothingToEncode)) := by cbv
  have hw : d'.write .plain (.limited (some 3)) = (d', .error Sink.writeFault
      ⟨#[0x4D, 0x4F, 0x42], some 0, Sink.writeFault, none⟩) := by cbv
  obtain ⟨hvalue, hencode, -⟩ := marks_of_error .utf8 d.root .unlimited d .plain
  obtain ⟨-, -, hwrite⟩ := marks_of_error .utf8 d.root (.limited (some 3)) d' .plain
  refine ⟨⟨?_, ?_⟩, ?_⟩
  · exact (congrArg (·.1.flags) hv).trans ((hvalue _ _ _ hv).2.2 (by decide))
  · rw [hd]
    exact (hencode _ _ hd).2.2 (by decide)
  · rw [hw]
    exact (hwrite .stored Gzip.defaultLevel _ _ _ _ hw).2.2 (by decide)

/-- With the child marked, it loses its mark, though nothing of it was kept. -/
theorem marks_lost :
    let a : Value := ⟨some "a", .scalar (.boolean true), true⟩
    let b : Value := ⟨some "b", .scalar (.timestamp .empty), true⟩
    let d (es : List (String × Value)) : Document := ⟨.standard, "", es, true, .plain⟩
    let cleared : Value := { a with modified := false }
    ((d [("a", a), ("b", b)]).root.encode .utf8 .unlimited = ((d [("a", cleared), ("b", b)]).root,
        .error (.malformedTimestamp .nothingToEncode) (.holding [3, 0, 0, 0, 1, 97, 1, 10, 0, 0, 0, 1, 98])) ∧
      (d [("a", a), ("b", b)]).encode = (d [("a", cleared), ("b", b)], .error (.malformedTimestamp .nothingToEncode)) ∧
      (d [("a", a)]).write .plain (.limited (some 3)) = (d [("a", cleared)],
        .error Sink.writeFault ⟨#[0x4D, 0x4F, 0x42], some 0, Sink.writeFault, none⟩)) ∧
      ¬Keeps (d [("a", a), ("b", b)]).root.flags (d [("a", cleared), ("b", b)]).root.flags ∧
      ¬Keeps (d [("a", a)]).root.flags (d [("a", cleared)]).root.flags := by
  intro a b d cleared
  refine ⟨⟨by cbv, by cbv, by cbv⟩, fun h => ?_, fun h => ?_⟩
  · cases h with
    | cons hmark _ => cases hmark rfl
  · cases h with
    | cons hmark _ => cases hmark rfl

end Document

end TypedDoc
