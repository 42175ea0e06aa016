/-
  TypedDoc.Proofs.Document.Canonical — documents without an envelope, read and written
  again.
  - `takes_readPlain`, `readPlain_ok`: the reader takes spellings of documents and nothing
    else.
  - `reencode`: what was read can be encoded, in at most as many bytes, and from those the
    same document is read; they are the bytes it was read from exactly if those were
    canonical.
-/

import TypedDoc.Proofs.Document.Encode
import TypedDoc.Proofs.Value.Canonical

namespace TypedDoc

open Wire

/-! ## Headers -/

namespace Header

theorem ofBytes_toBytes (h : Header) : ofBytes h.toBytes = .ok h := by
  obtain ⟨c, v⟩ := h
  cases c <;> rfl

theorem toBytes_of_ofBytes {bs : List UInt8} {h : Header} (hb : ofBytes bs = .ok h) : h.toBytes = bs := by
  simp only [ofBytes] at hb
  split at hb
  · rename_i a b c d charset version y z
    split at hb
    · cases hb
    rename_i hsig
    split at hb
    · cases hb
    rename_i cs hcs
    split at hb
    · cases hb
    rename_i htrail
    cases hb
    have hb := Charset.toByte_of_ofByte hcs
    have h1 : [a, b, c, d] = signature := not_not.1 hsig
    have h2 : [y, z] = [0, 0] := not_not.1 htrail
    cases h2
    simp only [toBytes, ← h1, hb, List.cons_append, List.nil_append]
  · cases hb

theorem codes_read : Codes read toBytes fun _ => True :=
  (codes_exactly size).settle ofBytes toBytes ofBytes_toBytes (fun _ _ _ => toBytes_of_ofBytes) fun _ => rfl

end Header

/-! ## Whole documents -/

namespace Document

/-- A document in a stream. -/
structure Spelling where
  header : Header
  rootName : String
  root : TypedDoc.Spelling

namespace Spelling

def bytes (σ : Spelling) : List UInt8 :=
  σ.header.toBytes ++ (Kind.object.toByte :: (stringBytes σ.header.charset σ.rootName ++ σ.root.bytes σ.header.charset))

def document (σ : Spelling) : Document := ⟨σ.header, σ.rootName, σ.root.payload.entries?.getD [], false, .plain⟩

structure Fits (reg : Registry) (σ : Spelling) : Prop where
  rootName : Counted σ.header.charset σ.rootName
  kind : σ.root.kind = .object
  root : σ.root.Fits reg σ.header.charset (maxDepth + 1)

/-- Every boolean byte is 0 or 1, no object repeats a name, and no list or array without
    elements declares their type. -/
def Canonical (σ : Spelling) : Prop := σ.root.Canonical

theorem payload_root {reg : Registry} {σ : Spelling} (h : σ.Fits reg) : Payload.object σ.document.entries = σ.root.payload := by
  have hk := h.kind
  rw [document]
  cases hr : σ.root with
  | object es => rfl
  | leaf l =>
    rw [hr] at hk
    cases l with
    | boolean raw => cases hk
    | scalar s => cases s <;> cases hk
  | _ => rw [hr] at hk; cases hk

end Spelling

variable {reg : Registry}

theorem takes_readPlain {σ : Spelling} (hreg : reg.kindOf Kind.object.toByte = .ok .object) (h : σ.Fits reg) :
    Takes (readPlain reg) σ.bytes σ.document := by
  have hall : Takes (readPlain reg) (σ.header.toBytes ++ ([Kind.object.toByte] ++ (stringBytes σ.header.charset σ.rootName ++
      ([] ++ (σ.root.bytes σ.header.charset ++ []))))) σ.document := by
    refine (Header.codes_read.takes _ trivial).bind ?_
    refine (codes_takeByte.takes _ trivial).bind ?_
    rw [if_neg (not_not_intro rfl)]
    refine ((codes_takeString _).takes _ h.rootName).bind ?_
    refine (takes_settled hreg).bind ?_
    rw [if_neg (not_not_intro rfl)]
    have hroot := takes_decode h.root
    rw [h.kind] at hroot
    exact hroot.bind (takes_pure _)
  exact hall.of_eq (by simp [Spelling.bytes]) rfl

theorem readPlain_ok {s s' : Supply} {d : Document} (h : readPlain reg s = .ok d s') :
    ∃ σ : Spelling, σ.Fits reg ∧ d = σ.document ∧ Took s σ.bytes s' := by
  obtain ⟨header, s1, h1, h⟩ := bind_ok h
  obtain ⟨id, s2, h2, h⟩ := bind_ok h
  have t1 := (Header.codes_read.took _ _ _ h1).2
  have t2 := (codes_takeByte.took _ _ _ h2).2
  split at h
  · obtain ⟨_, _, h, -⟩ := bind_ok h
    exact (throw_ne_ok h).elim
  rename_i hid
  obtain ⟨name, s3, h3, h⟩ := bind_ok h
  obtain ⟨hname, t3⟩ := (codes_takeString _).took _ _ _ h3
  obtain ⟨kind, hkind, h⟩ := settled_bind_ok h
  split at h
  · obtain ⟨_, _, h, -⟩ := bind_ok h
    exact (throw_ne_ok h).elim
  obtain ⟨p, s4, h4, h⟩ := bind_ok h
  obtain ⟨rfl, rfl⟩ := pure_ok h
  obtain ⟨σ, hk, hσ, rfl, t4⟩ := decode_ok h4
  refine ⟨⟨header, name, σ⟩, ⟨hname, hk, hσ⟩, rfl, ?_⟩
  exact (t1.trans (t2.trans (t3.trans t4))).of_eq (by simp [Spelling.bytes, not_not.1 hid])

/-! ## Writing what was read -/

/-- The spelling a document is written in. -/
def spell (d : Document) : Spelling := ⟨d.header, d.rootName, (Payload.object d.entries).spell⟩

theorem bytes_spell (d : Document) : d.spell.bytes = d.bytes := by
  simp [spell, Spelling.bytes, bytes, preambleBytes]

theorem fits_spell {d : Document} (h : d.Encodable) : d.spell.Fits .standard :=
  ⟨h.rootName, rfl, Payload.fits_spell h.tree (Nat.lt_succ_of_le h.depth)⟩

theorem encodable_document {σ : Spelling} (h : σ.Fits reg) : σ.document.Encodable := by
  have hroot := Spelling.payload_root h
  refine ⟨h.rootName, ?_, ?_⟩
  · rw [hroot]
    exact Nat.le_of_lt_succ (TypedDoc.Spelling.depth_lt h.root)
  · rw [hroot]
    exact TypedDoc.Spelling.encodable h.root

/-- Nothing that was read is marked. -/
theorem clear_document {σ : Spelling} (h : σ.Fits reg) : σ.document.clear = σ.document := by
  have hclear := TypedDoc.Spelling.clearModified_payload h.root
  rw [← Spelling.payload_root h] at hclear
  have hes : clearEntries σ.document.entries = σ.document.entries := Payload.object.inj hclear
  rw [clear, hes]
  rfl

/-- The bytes anew: no more than the old, and the old ones if those were canonical. -/
theorem rewrite_document {σ : Spelling} (h : σ.Fits .standard) :
    σ.document.bytes.length ≤ σ.bytes.length ∧ (σ.document.bytes = σ.bytes ↔ σ.Canonical) := by
  obtain ⟨hle, hiff⟩ := TypedDoc.Spelling.rewrite h.root
  have hnew : σ.document.bytes = σ.header.toBytes ++ (Kind.object.toByte ::
      (stringBytes σ.header.charset σ.rootName ++ σ.root.payload.spell.bytes σ.header.charset)) := by
    rw [← bytes_spell, Spelling.bytes, spell, Spelling.payload_root h]
    rfl
  rw [hnew, Spelling.bytes, Spelling.Canonical, ← hiff]
  refine ⟨?_, ?_⟩
  · simp only [List.length_append, List.length_cons]
    omega
  · rw [List.append_cancel_left_eq, List.cons.injEq, List.append_cancel_left_eq]
    exact and_iff_right rfl

theorem spell_document {σ : Spelling} (h : σ.Fits reg) : σ.document.spell.document = σ.document := by
  have hcollapse : σ.document.spell.root.payload = σ.root.payload := by
    rw [spell, Payload.payload_spell (encodable_document h).tree, Spelling.payload_root h,
      TypedDoc.Spelling.collapse_payload h.root]
  rw [Spelling.document, hcollapse]
  rfl

/-- Two spellings in the same bytes are of the same document. -/
theorem document_inj {σ τ : Spelling} (hσ : σ.Fits .standard) (hτ : τ.Fits .standard) (h : σ.bytes = τ.bytes) :
    σ.document = τ.document := by
  obtain ⟨s', h1, -⟩ := takes_readPlain (Registry.kindOf_standard .object) hσ ⟨[σ.bytes], [], none⟩ [] (by simp)
  obtain ⟨s'', h2, -⟩ := takes_readPlain (Registry.kindOf_standard .object) hτ ⟨[σ.bytes], [], none⟩ [] (by simp [h])
  rw [h1] at h2
  exact (EStateM.Result.ok.inj h2).1

/-- What becomes of a document that was read from any bytes: it can be encoded, in at most
    as many bytes as were taken; these give the same document again, and so the same bytes
    from then on; and they are the bytes that were taken if and only if those were
    canonical. -/
theorem reencode {s s' : Supply} {d : Document} (hs : s.parting = []) (h : readPlain .standard s = .ok d s') :
    ∃ taken bs, s.bytes = taken ++ s'.bytes ∧ d.encode = (d, .ok bs) ∧ bs.length ≤ taken.length ∧
      (∀ (t : Supply) (rest : List UInt8), t.pieces.flatten = bs ++ rest →
        ∃ t', readPlain .standard t = .ok d t' ∧ t'.pieces.flatten = rest ∧ t'.parting = t.parting ∧
          t'.ending = t.ending) ∧
      (∃ σ : Spelling, σ.Fits .standard ∧ σ.bytes = taken) ∧
      ∀ σ : Spelling, σ.Fits .standard → σ.bytes = taken → (bs = taken ↔ σ.Canonical) := by
  obtain ⟨σ, hσ, rfl, ht⟩ := readPlain_ok h
  have he := encodable_document hσ
  refine ⟨σ.bytes, σ.document.bytes, (ht.whole hs).2, ?_, (rewrite_document hσ).1, fun t rest htr => ?_, ⟨σ, hσ, rfl⟩,
    fun τ hτ hbytes => ?_⟩
  · rw [encode_of_encodable he, clear_document hσ]
  · have := takes_readPlain (Registry.kindOf_standard .object) (fits_spell he) t rest (by rw [bytes_spell]; exact htr)
    rwa [spell_document hσ] at this
  · rw [← hbytes, ← document_inj hτ hσ hbytes]
    exact (rewrite_document hτ).2

/-- A boolean spelled 2 is read, and written as 1. -/
theorem reencode_boolean :
    let bs : List UInt8 := [0x4D, 0x4F, 0x42, 0x46, 1, 1, 0, 0, 1, 0, 0, 0, 0, 3, 0, 0, 0, 1, 97, 2, 0]
    let d : Document := ⟨.standard, "", [("a", ⟨some "a", .scalar (.boolean true), false⟩)], false, .plain⟩
    ∃ s' bs', readPlain .standard (.ofBytes bs) = .ok d s' ∧ d.encode = (d, .ok bs') ∧ bs'.length ≤ bs.length ∧ bs' ≠ bs := by
  intro bs d
  have h : readPlain .standard (.ofBytes bs) = .ok d ⟨[[]], [], none⟩ := by cbv
  obtain ⟨taken, bs', hbytes, henc, hle, -, -, hall⟩ := reencode rfl h
  have hbytes : bs = taken ++ [] := hbytes
  obtain rfl : taken = bs := by rw [hbytes, List.append_nil]
  have hfits : (⟨.standard, "", .object [(3, "a", .leaf (.boolean 2))]⟩ : Spelling).Fits .standard :=
    ⟨by decide, rfl, .object (by decide) (by decide) (by simpa using .leaf trivial)⟩
  refine ⟨_, bs', h, henc, hle, fun heq => ?_⟩
  cases (hall _ hfits rfl).1 heq with
  | object names below =>
    cases below _ (List.mem_singleton.2 rfl) with
    | leaf h => rcases h with h | h <;> cases h

end Document

end TypedDoc
