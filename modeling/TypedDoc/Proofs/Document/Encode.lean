/-
  TypedDoc.Proofs.Document.Encode — a document as bytes: when it can be encoded, as what,
  and what an attempt makes of it.
  - `encode_ok`, `encode_of_encodable`: it can be encoded exactly if it is `Encodable`;
    the bytes are those of its spelling, and afterwards every flag is clear.
  - `encode_error`: a failure changes flags below the root at most.
  - `encode_clear`: flags do not show in the bytes.
-/

import TypedDoc.Document
import TypedDoc.Proofs.Value.Writing

namespace TypedDoc

open Wire

namespace Document

/-- The document with every flag clear. -/
def clear (d : Document) : Document := { d with entries := clearEntries d.entries, modified := false }

/-- What can be encoded. -/
structure Encodable (d : Document) : Prop where
  rootName : Counted d.header.charset d.rootName
  depth : (Payload.object d.entries).depth ≤ maxDepth
  tree : (Payload.object d.entries).Every (Payload.Encodable d.header.charset)

/-! ## What is written -/

def preambleBytes (d : Document) : List UInt8 :=
  d.header.toBytes ++ (Kind.object.toByte :: stringBytes d.header.charset d.rootName)

def preambleLayout (d : Document) : Layout :=
  (Layout.full d.header.toBytes).andThen
    ((Layout.full [Kind.object.toByte]).andThen (stringLayout d.header.charset d.rootName))

theorem preamble_eq (d : Document) : d.preamble = (fun _ => ()) <$> d.preambleLayout.write := by
  rw [preambleLayout, ← Layout.bind_write, ← Layout.bind_write, ← putString_eq]
  simp only [preamble, Layout.write_full, Header.write, map_bind, map_pure, bind_assoc, pure_bind]

theorem preambleLayout_flaw {d : Document} : d.preambleLayout.flaw = none ↔ Counted d.header.charset d.rootName := by
  rw [preambleLayout, Layout.andThen_flaw, Layout.andThen_flaw, stringLayout_flaw]
  exact (and_iff_right rfl).trans (and_iff_right rfl)

theorem preambleLayout_bytes {d : Document} (h : Counted d.header.charset d.rootName) :
    d.preambleLayout.bytes = d.preambleBytes := by
  rw [preambleLayout, Layout.andThen_bytes rfl, Layout.andThen_bytes rfl, stringLayout_bytes h]
  rfl

/-- The bytes of a document that can be encoded. -/
def bytes (d : Document) : List UInt8 :=
  d.preambleBytes ++ (Payload.object d.entries).spell.bytes d.header.charset

theorem preamble_ok {d : Document} (h : Counted d.header.charset d.rootName) :
    d.preamble .unlimited = .ok () (.holding d.preambleBytes) := by
  rw [preamble_eq]
  show EStateM.map _ d.preambleLayout.write (.holding []) = _
  simp only [EStateM.map, Layout.write_holding, preambleLayout_flaw.2 h, preambleLayout_bytes h, List.nil_append]

theorem preamble_error {d : Document} (h : ¬Counted d.header.charset d.rootName) :
    ∃ e k, d.preamble .unlimited = .error e k := by
  rw [preamble_eq]
  show ∃ e k, EStateM.map _ d.preambleLayout.write (.holding []) = _
  cases hf : d.preambleLayout.flaw with
  | none => exact absurd (preambleLayout_flaw.1 hf) h
  | some e =>
    simp only [EStateM.map, Layout.write_holding, hf]
    exact ⟨e, _, rfl⟩

/-! ## Outcomes -/

theorem depth_root (d : Document) : d.root.depth = (Payload.object d.entries).depth := by
  rw [Value.depth_eq, root]

theorem payload_updateRoot {d : Document} {v : Value} (h : v.clearModified = d.root.clearModified) :
    (d.updateRoot v).root.payload = v.payload := by
  have hp : v.payload.clearModified = .object (clearEntries d.entries) := by
    rw [← Value.payload_clearModified, h]
    rfl
  cases hv : v.payload with
  | object es => simp only [root, updateRoot, hv, Payload.entries?, Option.getD_some]
  | _ => rw [hv] at hp; cases hp

/-- Whatever a walk over the tree did to flags, clearing them all is clearing them all. -/
theorem updateRoot_clear {d : Document} {v : Value} (h : v.clearModified = d.root.clearModified) :
    (d.updateRoot v).clear = d.clear ∧ (d.updateRoot v).modified = v.modified := by
  have hp : (Payload.object (d.updateRoot v).entries).clearModified = (Payload.object d.entries).clearModified := by
    have hpayload := congrArg Value.payload h
    rw [Value.payload_clearModified, Value.payload_clearModified, ← payload_updateRoot h] at hpayload
    exact hpayload
  refine ⟨?_, rfl⟩
  unfold clear
  rw [Payload.object.inj hp]
  rfl

theorem emits_root (d : Document) : Emits Value.clearModified d.root ((Payload.object d.entries).layout d.header.charset)
    (d.root.emit d.header.charset) := by
  have h := d.root.emits d.header.charset
  rw [Value.layout_eq] at h
  exact h

theorem encode_of_encodable {d : Document} (h : d.Encodable) : d.encode = (d.clear, .ok d.bytes) := by
  have he := d.emits_root
  have ho := he.outcome (.holding d.preambleBytes)
  rw [Layout.write_holding, Payload.layout_flaw_iff.2 h.tree, Payload.layout_bytes h.tree] at ho
  have hc := he.cleared _ _ _ ho
  have hd : ¬maxDepth < d.root.depth := by rw [depth_root]; exact Nat.not_lt.2 h.depth
  simp only [encode, preamble_ok h.rootName, Value.encode, if_neg hd]
  rw [show d.root.emit d.header.charset (.holding d.preambleBytes) = (_, _) from Prod.ext hc ho]
  rfl

/-- A failure leaves all but flags below the root. -/
theorem encode_of_not_encodable {d : Document} (h : ¬d.Encodable) :
    ∃ d' e, d.encode = (d', .error e) ∧ d'.clear = d.clear ∧ d'.modified = d.modified := by
  by_cases hn : Counted d.header.charset d.rootName
  · by_cases hd : maxDepth < d.root.depth
    · refine ⟨d.updateRoot d.root, .encodeTooDeep maxDepth, ?_, updateRoot_clear rfl⟩
      simp only [encode, preamble_ok hn, Value.encode, if_pos hd]
    · have he := d.emits_root
      have ho := he.outcome (.holding d.preambleBytes)
      rw [Layout.write_holding] at ho
      cases hf : ((Payload.object d.entries).layout d.header.charset).flaw with
      | none => exact absurd ⟨hn, by rw [← depth_root]; exact Nat.not_lt.1 hd, Payload.layout_flaw_iff.1 hf⟩ h
      | some e =>
        simp only [hf] at ho
        refine ⟨d.updateRoot (d.root.emit d.header.charset (.holding d.preambleBytes)).1, e, ?_, ?_⟩
        · have hemit : d.root.emit d.header.charset (.holding d.preambleBytes) =
              ((d.root.emit d.header.charset (.holding d.preambleBytes)).1, .error e _) := Prod.ext rfl ho
          simp only [encode, preamble_ok hn, Value.encode, if_neg hd]
          rw [hemit]
        · obtain ⟨h1, h2⟩ := updateRoot_clear (he.same (.holding d.preambleBytes))
          exact ⟨h1, h2.trans (Value.modified_emit ho)⟩
  · obtain ⟨e, k, hp⟩ := preamble_error hn
    exact ⟨d, e, by simp only [encode, hp], rfl, rfl⟩

theorem encode_ok {d d' : Document} {bs : List UInt8} (h : d.encode = (d', .ok bs)) :
    d.Encodable ∧ d' = d.clear ∧ bs = d.bytes := by
  by_cases he : d.Encodable
  · rw [encode_of_encodable he] at h
    cases h
    exact ⟨he, rfl, rfl⟩
  · obtain ⟨_, _, h', -⟩ := encode_of_not_encodable he
    rw [h'] at h
    cases h

theorem encode_error {d d' : Document} {e : Error} (h : d.encode = (d', .error e)) :
    ¬d.Encodable ∧ d'.clear = d.clear ∧ d'.modified = d.modified := by
  by_cases he : d.Encodable
  · rw [encode_of_encodable he] at h
    cases h
  · obtain ⟨_, _, h', hc⟩ := encode_of_not_encodable he
    rw [h'] at h
    cases h
    exact ⟨he, hc⟩

/-! ## Flags do not show -/

theorem encodable_clear {d : Document} : d.clear.Encodable ↔ d.Encodable := by
  have hp : Payload.object (clearEntries d.entries) = (Payload.object d.entries).clearModified := rfl
  have hd := Payload.depth_clearModified (.object d.entries)
  have ht : ((Payload.object d.entries).clearModified).Every (Payload.Encodable d.header.charset) ↔
      (Payload.object d.entries).Every (Payload.Encodable d.header.charset) := by
    rw [← Payload.layout_flaw_iff, ← Payload.layout_flaw_iff, Payload.layout_clearModified]
  constructor
  · rintro ⟨h1, h2, h3⟩
    simp only [clear, hp, hd] at h1 h2 h3
    exact ⟨h1, h2, ht.1 h3⟩
  · rintro ⟨h1, h2, h3⟩
    refine ⟨h1, ?_, ?_⟩
    · simp only [clear, hp, hd]
      exact h2
    · simp only [clear, hp]
      exact ht.2 h3

theorem bytes_clear (d : Document) : d.clear.bytes = d.bytes := by
  simp only [bytes, preambleBytes, clear]
  rw [show Payload.object (clearEntries d.entries) = (Payload.object d.entries).clearModified from rfl,
    Payload.spell_clearModified]

end Document

end TypedDoc
