/-
  TypedDoc.Proofs.Document.Lookups — what a registry with fewer bindings reads.

  `decoding_of_extends`: of any stream it reads what the larger one reads, value, failure
  and bytes taken, or it stops at an id that it does not bind, the first of those that the
  larger one looked up. That goes for values, decoded anew or in place, and for documents
  without an envelope, where the id of the root is looked up behind its name.
-/

import TypedDoc.Proofs.Document.Taken
import TypedDoc.Proofs.Value.Lookups

namespace TypedDoc

open Wire

theorem Value.looksUp_decode (c : Charset) (v : Value) : LooksUp fun reg => v.decode reg c :=
  (LooksUp.decode c v.kind).bind fun _ => .const _

theorem Document.looksUp_readPlain : LooksUp fun reg => readPlain reg := by
  refine (LooksUp.const Header.read).bind fun header => (LooksUp.const takeByte).bind fun id => .ite (.const _) ?_
  refine (LooksUp.const (takeString _)).bind fun name => (LooksUp.kindOf id).bind fun kind => .ite (.const _) ?_
  exact (LooksUp.decode header.charset .object).bind fun p => .const _

/-- What comes of decoding in place narrows with what comes of decoding. -/
theorem Narrows.load {R S : Registry} {met : List UInt8} {c : Charset} {v : Value} {s : Supply}
    (h : Narrows R met (v.decode R c s) (v.decode S c s)) :
    Narrows R met (Value.load R c (v, s)) (Value.load S c (v, s)) := by
  refine .of_first ?_
  cases hf : met.find? fun id => (R.resolve? id).isNone with
  | none =>
    have hsame := h.all_bound fun id hid => by
      simpa [Registry.contains, Option.isSome_iff_ne_none] using List.find?_eq_none.1 hf id hid
    simp only [Value.load_eq, hsame]
  | some id =>
    obtain ⟨s', hs⟩ := h.first id hf
    exact ⟨(v, s'), Value.load_error hs⟩

/-- Whatever the stream, a part of the bindings reads what all of them do, or stops at the
    first id looked up that is not among them. -/
theorem Registry.decoding_of_extends {R S : Registry} (h : S.Extends R) (s : Supply) :
    (∀ (c : Charset) (v : Value), ∃ t : Lookups Value, (∀ reg, v.decode reg c s = t.run reg) ∧
      Narrows R (t.met S) (v.decode R c s) (v.decode S c s) ∧
      Narrows R (t.met S) (Value.load R c (v, s)) (Value.load S c (v, s))) ∧
    ∃ t : Lookups Document, (∀ reg, Document.readPlain reg s = t.run reg) ∧
      Narrows R (t.met S) (Document.readPlain R s) (Document.readPlain S s) := by
  refine ⟨fun c v => ?_, Document.looksUp_readPlain.narrows h s⟩
  obtain ⟨t, ht, hn⟩ := (v.looksUp_decode c).narrows h s
  exact ⟨t, ht, hn, hn.load⟩

set_option maxRecDepth 4000 in
/-- A root with a string and a list in it, where only objects and strings are bound: the
    list is what reading stops at. -/
theorem Registry.decoding_of_extends_list :
    let R : Registry := ⟨[(Kind.object.toByte, .object), (Kind.string.toByte, .string)]⟩
    let bs : List UInt8 := [0x4D, 0x4F, 0x42, 0x46, Charset.utf8.toByte, 1, 0, 0, Kind.object.toByte, 0, 0, 0, 0,
      Kind.string.toByte, 0, 0, 0, 1, 115, 0, 0, 0, 0, Kind.list.toByte, 0, 0, 0, 1, 108, 0, 0]
    Registry.standard.Extends R ∧
    (∃ t : Lookups Document, (∀ reg, Document.readPlain reg (.ofBytes bs) = t.run reg) ∧
      Narrows R (t.met .standard) (Document.readPlain R (.ofBytes bs)) (Document.readPlain .standard (.ofBytes bs))) ∧
    (∃ d s, Document.readPlain .standard (.ofBytes bs) = .ok d s) ∧
    ∃ s, Document.readPlain R (.ofBytes bs) = .error (.unknownTypeId Kind.list.toByte) s := by
  intro R bs
  have hext : Registry.standard.Extends R := by
    intro id k hk
    rcases List.mem_pair.1 (Registry.mem_of_resolve hk) with h | h <;> cases h <;> rfl
  exact ⟨hext, (decoding_of_extends hext (.ofBytes bs)).2, ⟨_, _, rfl⟩, _, rfl⟩

end TypedDoc
