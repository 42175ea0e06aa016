/-
  TypedDoc.Proofs.Document.Taken — nothing but the bytes taken counts in what is read.

  Reading a value or a document without an envelope is `Decisive`: an outcome other than
  `truncatedStream`, success or not, comes again of every stream that has the bytes taken
  at hand, and of no stream that ends before the last of them. A stream that ends there is
  truncated, and one that breaks off there fails with its own error (`decoding_decisive`).
  A value that was decoded into is as it was before unless it was read in full
  (`Value.load_eq`).

  This is said of plain streams. In a gzip member what is handed out hangs on the cuts as
  well, as `TypedDoc.Proofs.Document.Cuts` has it.
-/

import TypedDoc.Proofs.Document.Read
import TypedDoc.Proofs.Value.Cleared

namespace TypedDoc

open Wire

/-! ## Values -/

namespace Value

theorem decisive_decode (reg : Registry) (c : Charset) (v : Value) : Decisive (v.decode reg c) :=
  (TypedDoc.decisive_decode reg c v.kind).bind fun p => closed_decisive.pure { v with payload := p, modified := false }

end Value

/-! ## Documents -/

namespace Document

theorem decisive_readPlain (reg : Registry) : Decisive (readPlain reg) :=
  closed_readPlain closed_decisive fun c => decisive_decode reg c .object

theorem starves_of_encode {d d' : Document} {bs : List UInt8} (h : d.encode = (d', .ok bs)) :
    Starves (readPlain .standard) bs := by
  obtain ⟨hd, -, rfl⟩ := encode_ok h
  rw [← bytes_spell]
  exact (decisive_readPlain .standard).starves (takes_readPlain (Registry.kindOf_standard .object) (fits_spell hd))

/-- What is read of a value or of a document without an envelope, be it an error, is decided
    by the bytes taken and by all of them. A value decoded into in vain is as it was. Every
    beginning of an encoded document is found to be truncated. -/
theorem decoding_decisive (reg : Registry) :
    (∀ (c : Charset) (v : Value), Decisive (v.decode reg c) ∧
      ∀ (s : Supply) (e : Error) (s' : Supply), v.decode reg c s = .error e s' →
        Value.load reg c (v, s) = .error e (v, s')) ∧
    Decisive (readPlain reg) ∧
    ∀ (d d' : Document) (bs : List UInt8), d.encode = (d', .ok bs) → Starves (readPlain .standard) bs :=
  ⟨fun c v => ⟨v.decisive_decode reg c, fun _ _ _ => Value.load_error⟩, decisive_readPlain reg,
    fun _ _ _ => starves_of_encode⟩

/-- A string that is no UTF-8, with one more byte behind it and then a fault; and a document
    of which eight bytes come, before the end of the stream or before a fault. -/
theorem decoding_decisive_met :
    let gone : Error := .ioOther "gone"
    let flaw : Error := .invalidString (.badSequence 1 0)
    let bs : List UInt8 := [0x4D, 0x4F, 0x42, 0x46, Charset.utf8.toByte, 1, 0, 0, Kind.object.toByte, 0, 0, 0, 1, 114, 0]
    (∃ s', (Value.initial .string).decode .standard .utf8 ⟨[[0, 0], [0, 1, 0xFF, 9]], [], some gone⟩ = .error flaw s' ∧
      s'.pieces.flatten = [9] ∧
      Value.load .standard .utf8 (.initial .string, ⟨[[0, 0], [0, 1, 0xFF, 9]], [], some gone⟩) =
        .error flaw (.initial .string, s')) ∧
    ({ ofHeader .standard with rootName := "r" }.encode).2 = .ok bs ∧
    (∃ short s', readPlain .standard ⟨[bs.take 3, (bs.drop 3).take 5], [], none⟩ = .error (.truncatedStream short) s') ∧
    ∃ s', readPlain .standard ⟨[bs.take 8], [], some gone⟩ = .error gone s' := by
  intro gone flaw bs
  have henc : { ofHeader .standard with rootName := "r" }.encode = (_, .ok bs) := rfl
  obtain ⟨hvalue, -, hdoc⟩ := decoding_decisive .standard
  obtain ⟨hdecisive, hload⟩ := hvalue .utf8 (.initial .string)
  have hfail : (Value.initial .string).decode .standard .utf8 ⟨[[0, 0, 0, 1, 0xFF]], [], none⟩ =
      settled (.error flaw) ⟨[[]], [], none⟩ := rfl
  have hlong : ¬Short (.error (.invalidString (.badSequence 1 0)) : Except Error Value) := by
    rintro ⟨short, h⟩
    cases h
  obtain ⟨taken, took, answers, -⟩ := hdecisive _ _ _ rfl rfl hfail hlong
  obtain rfl : [0, 0, 0, 1, 0xFF] = taken := by simpa [Supply.bytes] using (took.whole rfl).2
  obtain ⟨s', h1, h2, -⟩ := answers ⟨[[0, 0], [0, 1, 0xFF, 9]], [], some gone⟩ [9] rfl
  have hstarves := hdoc _ _ _ henc
  refine ⟨⟨s', h1, h2, hload _ _ _ h1⟩, rfl, hstarves _ rfl (by decide) (by decide), ?_⟩
  obtain ⟨short, s', h⟩ := hstarves ⟨[bs.take 8], [], some gone⟩ rfl (by decide) (by decide)
  exact ⟨s', h⟩

end Document

end TypedDoc
