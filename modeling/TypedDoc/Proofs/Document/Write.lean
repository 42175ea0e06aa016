/-
  TypedDoc.Proofs.Document.Write — a document in an envelope, on a writer that may refuse,
  whatever packs the members.
  - `writeBy_ok`: it was encoded, and all of the envelope was put and flushed.
  - `writeBy_error`: nothing but flags has changed, and a modified root still is.
-/

import TypedDoc.Proofs.Document.Encode

namespace TypedDoc

open Wire

namespace Envelope

variable {codec : Gzip.Codec} {level : Nat} {e : Envelope} {bs : List UInt8} {k k' : Sink}

theorem writeBy_unlimited (codec : Gzip.Codec) (level : Nat) (e : Envelope) (bs : List UInt8) :
    e.writeBy codec level bs Sink.unlimited = .ok () (Sink.holding (e.wrapBy codec level bs)) := by
  show (do put (e.wrapBy codec level bs); flush : Encoder Unit) (.holding []) = _
  rw [bind_eq_of_ok _ (put_holding [] _)]
  rfl

theorem writeBy_ok (h : e.writeBy codec level bs k = .ok () k') :
    k'.written.toList = k.written.toList ++ e.wrapBy codec level bs := by
  obtain ⟨_, k₁, hput, hflush⟩ := bind_eq_ok.1 h
  rw [flush_ok hflush]
  exact put_ok hput

end Envelope

/-! ## Documents -/

namespace Document

theorem clear_clear (d : Document) : d.clear.clear = d.clear := by
  have h := Payload.object.inj (Payload.clearModified_clearModified (.object d.entries))
  unfold clear
  simp only [h]

theorem clear_markModified (d : Document) : d.markModified.clear = d.clear := rfl

variable {σ : Type} [Writer σ] {codec : Gzip.Codec} {level : Nat} {d d' : Document} {envelope : Envelope} {k k' : σ}

theorem writeBy_ok {n : Nat} (h : d.writeBy codec level envelope k = (d', .ok n k')) :
    d.Encodable ∧ d' = d.clear ∧ envelope.writeBy codec level d.bytes k = .ok () k' := by
  unfold writeBy at h
  split at h
  · cases h
  · rename_i d₁ bs he
    obtain ⟨hd, rfl, rfl⟩ := encode_ok he
    split at h
    · rename_i hw
      cases h
      exact ⟨hd, rfl, hw⟩
    · cases h

/-- Nothing was written, or only some of the envelope. -/
theorem writeBy_error {e : Error} (h : d.writeBy codec level envelope k = (d', .error e k')) :
    d'.clear = d.clear ∧ (d.modified = true → d'.modified = true) ∧
      (k' = k ∨ envelope.writeBy codec level d.bytes k = .error e k') := by
  unfold writeBy at h
  split at h
  · rename_i d₁ e₁ he
    cases h
    obtain ⟨-, hc, hm⟩ := encode_error he
    exact ⟨hc, fun h => hm.trans h, Or.inl rfl⟩
  · rename_i d₁ bs he
    obtain ⟨-, rfl, rfl⟩ := encode_ok he
    split at h
    · cases h
    · rename_i hw
      cases h
      exact ⟨by rw [clear_markModified, clear_clear], fun _ => rfl, Or.inr hw⟩

/-- What is written, and whether that succeeds, is a matter of everything but flags. -/
theorem writeBy_of_encodable (codec : Gzip.Codec) (level : Nat) (h : d.Encodable) (envelope : Envelope) (k : σ) :
    d.writeBy codec level envelope k =
      match envelope.writeBy codec level d.bytes k with
      | .ok _ k' => (d.clear, .ok d.bytes.length k')
      | .error e k' => (d.clear.markModified, .error e k') := by
  unfold writeBy
  rewrite [encode_of_encodable h]
  rfl

theorem writeBy_unlimited (codec : Gzip.Codec) (level : Nat) (h : d.Encodable) (envelope : Envelope) :
    d.writeBy codec level envelope .unlimited =
      (d.clear, .ok d.bytes.length (Sink.holding (envelope.wrapBy codec level d.bytes))) := by
  rw [writeBy_of_encodable codec level h, Envelope.writeBy_unlimited]

end Document

end TypedDoc
