/-
  TypedDoc.Proofs.Host.Extension — when the extension of documents is there once it has
  been added.

  What is added becomes part of the last name if the path ends in one. Behind a slash, and
  to the empty path, it is a name of its own, which begins with its only dot and so has no
  extension: the path is `Bare`. Adding the extension once more then adds it again.

  - `extension?_ofDocument`, `ofDocument_twice`: the extension is there, and stays alone,
    unless the path was bare.
  - `not_bare_ofDocument`: so it is there after the second time.
  - `raw_ofDocument`: paths that are texts and their bytes go the same way. In UTF-8 the
    bytes of a slash and of a dot stand for these characters only (`encodeChar_of_mem`).

  `ofDocument_extension` is all of it, and `ofDocument_slash` a path that is bare.
-/

import TypedDoc.Host.RawPath
import TypedDoc.Host.Source
import TypedDoc.Proofs.Host.FilePath
import TypedDoc.Proofs.Text.Utf8

namespace TypedDoc.Host

open Text.Utf8 (encode encodeChar encode_injective encodeChar_of_mem)

namespace RawPath

/-! ## Behind the last name -/

/-- An extension is added where there is no name for it to belong to. -/
def Bare (p : RawPath) : Prop :=
  p.extension? ≠ some documentExtension ∧ (p.bytes = [] ∨ p.bytes.getLast? = some slash)

instance (p : RawPath) : Decidable p.Bare := inferInstanceAs (Decidable (_ ∧ _))

theorem documentExtension_eq : documentExtension = [0x6D, 0x6F, 0x62, 0x66] := by decide

theorem dropTrailing_of_ne {b : UInt8} (hs : b ≠ slash) (hd : b ≠ dot) (bs : List UInt8) :
    dropTrailing (b :: bs) = b :: bs := by
  rw [dropTrailing, if_neg (by simp [hs, hd])]

/-- What stands behind the last slash, last byte first. -/
def behindSlash (p : RawPath) : List UInt8 := p.bytes.reverse.takeWhile (· != slash)

theorem behindSlash_eq_nil {p : RawPath} : p.behindSlash = [] ↔ p.bytes = [] ∨ p.bytes.getLast? = some slash := by
  have hnil : p.bytes = [] ↔ p.bytes.reverse = [] := List.reverse_eq_nil_iff.symm
  rw [behindSlash, ← List.head?_reverse, hnil]
  cases p.bytes.reverse with
  | nil => simp
  | cons b bs => by_cases hb : b = slash <;> simp [hb]

theorem lastName?_suffixed (p : RawPath) :
    p.suffixed.lastName? = some ([0x66, 0x62, 0x6F, 0x6D, dot] ++ p.behindSlash) := by
  have hrev : p.suffixed.bytes.reverse = 0x66 :: ([0x62, 0x6F, 0x6D, dot] ++ p.bytes.reverse) := by
    simp [suffixed, documentExtension_eq]
  have hname : (dropTrailing p.suffixed.bytes.reverse).takeWhile (· != slash) =
      [0x66, 0x62, 0x6F, 0x6D, dot] ++ p.behindSlash := by
    rw [hrev, dropTrailing_of_ne (by decide) (by decide)]
    simp [behindSlash, slash, dot]
  rw [lastName?, hname]
  simp

theorem extension?_suffixed (p : RawPath) :
    p.suffixed.extension? = if p.behindSlash = [] then none else some documentExtension := by
  rw [extension?, lastName?_suffixed]
  simp [extensionOf, dot, documentExtension_eq]

/-! ## Adding the extension -/

theorem extension?_ofDocument (p : RawPath) :
    p.ofDocument.extension? = if p.Bare then none else some documentExtension := by
  by_cases hext : p.extension? = some documentExtension
  · have hbare : ¬p.Bare := fun h => h.1 hext
    rw [ofDocument, if_pos hext, if_neg hbare, hext]
  · have hbare : p.Bare ↔ p.behindSlash = [] := (and_iff_right hext).trans behindSlash_eq_nil.symm
    rw [ofDocument, if_neg hext, extension?_suffixed]
    simp only [hbare]

/-- What was added stands behind the last slash. -/
theorem not_bare_suffixed (p : RawPath) : ¬p.suffixed.Bare := by
  rintro ⟨-, hend⟩
  have hbehind := behindSlash_eq_nil.2 hend
  simp [behindSlash, suffixed, documentExtension_eq, slash] at hbehind

theorem not_bare_ofDocument (p : RawPath) : ¬p.ofDocument.Bare := by
  by_cases hext : p.extension? = some documentExtension
  · rw [ofDocument, if_pos hext]
    exact fun h => h.1 hext
  · rw [ofDocument, if_neg hext]
    exact p.not_bare_suffixed

theorem ofDocument_twice (p : RawPath) :
    p.ofDocument.ofDocument = if p.Bare then p.suffixed.suffixed else p.ofDocument := by
  have hext := p.extension?_ofDocument
  by_cases hbare : p.Bare
  · rw [if_pos hbare] at hext ⊢
    have hadded : p.ofDocument = p.suffixed := if_neg hbare.1
    rw [ofDocument, if_neg (by rw [hext]; exact nofun), hadded]
  · rw [if_neg hbare] at hext ⊢
    exact if_pos hext

theorem suffixed_ne (p : RawPath) : p.suffixed ≠ p := by
  intro h
  have hlen := congrArg (fun q : RawPath => q.bytes.length) h
  simp [suffixed] at hlen

theorem ofDocument_idempotent (p : RawPath) : p.ofDocument.ofDocument = p.ofDocument ↔ ¬p.Bare := by
  rw [ofDocument_twice]
  by_cases hbare : p.Bare
  · have hadded : p.ofDocument = p.suffixed := if_neg hbare.1
    simp only [hadded, hbare, if_true, not_true_eq_false, iff_false]
    exact p.suffixed.suffixed_ne
  · simp [hbare]

theorem bytes_ofDocument (p : RawPath) : p.bytes <+: p.ofDocument.bytes := by
  rw [ofDocument]
  split
  · exact List.prefix_refl _
  · exact List.prefix_append _ _

end RawPath

/-! ## Paths that are texts -/

section

/-- A character, last byte first. -/
def reversedChar (c : Char) : List UInt8 := (encodeChar c).reverse

theorem flatMap_reversedChar (cs : List Char) : cs.flatMap reversedChar = (encode (String.ofList cs.reverse)).reverse := by
  rw [encode, String.toList_ofList, List.reverse_flatMap, List.reverse_reverse]
  rfl

theorem flatMap_reversedChar_inj (cs cs' : List Char) : cs.flatMap reversedChar = cs'.flatMap reversedChar ↔ cs = cs' := by
  constructor
  · intro h
    rw [flatMap_reversedChar, flatMap_reversedChar] at h
    exact List.reverse_inj.1 (String.ofList_injective (encode_injective (List.reverse_inj.1 h)))
  · rintro rfl
    rfl

/-- A character that one byte below 128 stands for. -/
structure Ascii (c : Char) (b : UInt8) : Prop where
  one : encodeChar c = [b]
  low : b.toNat < 0x80

theorem ascii_slash : Ascii '/' RawPath.slash := ⟨rfl, by decide⟩

theorem ascii_dot : Ascii '.' RawPath.dot := ⟨rfl, by decide⟩

variable {c₀ : Char} {b₀ : UInt8}

theorem Ascii.flatMap_cons (h : Ascii c₀ b₀) (cs : List Char) :
    (c₀ :: cs).flatMap reversedChar = b₀ :: cs.flatMap reversedChar := by
  rw [List.flatMap_cons, reversedChar, h.one]
  rfl

theorem Ascii.not_mem (h : Ascii c₀ b₀) {c : Char} (hc : c ≠ c₀) : ∀ b ∈ reversedChar c, (b != b₀) = true := by
  intro b hb
  rw [bne_iff_ne]
  rintro rfl
  have hone := encodeChar_of_mem (List.mem_reverse.1 hb) h.low
  have hsame : encode (String.ofList [c]) = encode (String.ofList [c₀]) := by
    simp [encode, hone, h.one]
  have hchars := String.ofList_injective (encode_injective hsame)
  exact hc (List.cons.inj hchars).1

theorem Ascii.takeWhile (h : Ascii c₀ b₀) (cs : List Char) :
    (cs.flatMap reversedChar).takeWhile (· != b₀) = (cs.takeWhile (· != c₀)).flatMap reversedChar := by
  induction cs with
  | nil => rfl
  | cons c cs ih =>
    by_cases hc : c = c₀
    · subst hc
      simp [h.flatMap_cons]
    · rw [List.flatMap_cons, List.takeWhile_append_of_pos (h.not_mem hc), ih]
      simp [hc]

theorem Ascii.dropWhile (h : Ascii c₀ b₀) (cs : List Char) :
    (cs.flatMap reversedChar).dropWhile (· != b₀) = (cs.dropWhile (· != c₀)).flatMap reversedChar := by
  induction cs with
  | nil => rfl
  | cons c cs ih =>
    by_cases hc : c = c₀
    · subst hc
      simp [h.flatMap_cons]
    · rw [List.flatMap_cons, List.dropWhile_append_of_pos (h.not_mem hc), ih]
      simp [hc]

/-- Behind the first such byte there are the characters behind the first such character. -/
theorem Ascii.behind (h : Ascii c₀ b₀) (cs : List Char) :
    ((cs.flatMap reversedChar).dropWhile (· != b₀)).drop 1 = ((cs.dropWhile (· != c₀)).drop 1).flatMap reversedChar := by
  rw [h.dropWhile]
  cases hcs : cs.dropWhile (· != c₀) with
  | nil => rfl
  | cons c rest =>
    have hc : c = c₀ := by
      have := List.head?_dropWhile_not (· != c₀) cs
      rw [hcs] at this
      simpa using this
    subst hc
    rw [h.flatMap_cons]
    rfl

theorem Ascii.head? (h : Ascii c₀ b₀) {cs : List Char} (hb : (cs.flatMap reversedChar).head? = some b₀) :
    ∃ rest, cs = c₀ :: rest := by
  cases cs with
  | nil => cases hb
  | cons c rest =>
    by_cases hc : c = c₀
    · exact ⟨rest, by rw [hc]⟩
    · have hne : reversedChar c ≠ [] := by
        intro hnil
        cases (flatMap_reversedChar_inj [c] []).1 (by simp [hnil])
      obtain ⟨b, bs, hbs⟩ := List.exists_cons_of_ne_nil hne
      have hnot := h.not_mem hc b (by rw [hbs]; exact List.mem_cons_self)
      rw [List.flatMap_cons, hbs] at hb
      simp at hb hnot
      exact absurd hb hnot

theorem dropTrailing_flatMap (cs : List Char) :
    RawPath.dropTrailing (cs.flatMap reversedChar) = (FilePath.dropTrailing cs).flatMap reversedChar := by
  fun_induction FilePath.dropTrailing cs with
  | case1 cs ih =>
    rw [ascii_slash.flatMap_cons, RawPath.dropTrailing, if_pos (Or.inl rfl), ih]
  | case2 cs ih =>
    rw [ascii_dot.flatMap_cons, ascii_slash.flatMap_cons, RawPath.dropTrailing, if_pos (Or.inr ⟨rfl, rfl⟩),
      RawPath.dropTrailing, if_pos (Or.inl rfl), ih]
  | case3 cs hslash hdot =>
    -- A byte that would be dropped is a character that would be, so one of the cases above.
    cases hbytes : cs.flatMap reversedChar with
    | nil => rfl
    | cons b bs =>
      rw [RawPath.dropTrailing, if_neg]
      rintro (rfl | ⟨rfl, hnext⟩)
      · obtain ⟨rest, rfl⟩ := ascii_slash.head? (by rw [hbytes]; rfl)
        exact hslash rest rfl
      · obtain ⟨rest, rfl⟩ := ascii_dot.head? (by rw [hbytes]; rfl)
        rw [ascii_dot.flatMap_cons] at hbytes
        obtain ⟨rest', rfl⟩ := ascii_slash.head? (by rw [(List.cons.inj hbytes).2]; exact hnext)
        exact hdot rest' rfl

end

namespace FilePath

theorem lastName?_raw (p : FilePath) : p.raw.lastName? = p.lastName?.map fun x => x.2.flatMap reversedChar := by
  have hrev : p.raw.bytes.reverse = p.text.toList.reverse.flatMap reversedChar := by
    rw [flatMap_reversedChar, List.reverse_reverse, String.ofList_toList]
    rfl
  have hname : (RawPath.dropTrailing p.raw.bytes.reverse).takeWhile (· != RawPath.slash) =
      (p.reversed.takeWhile (!isSlash ·)).flatMap reversedChar := by
    rw [hrev, dropTrailing_flatMap, ascii_slash.takeWhile]
    rfl
  have hidle : ∀ cs : List Char, (cs.flatMap reversedChar = [] ∨ cs.flatMap reversedChar = [RawPath.dot] ∨
      cs.flatMap reversedChar = [RawPath.dot, RawPath.dot]) ↔ (cs = [] ∨ cs = ['.'] ∨ cs = ['.', '.']) := by
    intro cs
    rw [← flatMap_reversedChar_inj cs [], ← flatMap_reversedChar_inj cs ['.'], ← flatMap_reversedChar_inj cs ['.', '.']]
    rfl
  rw [RawPath.lastName?, hname, lastName?]
  simp only [hidle]
  split <;> rfl

theorem extension?_raw (p : FilePath) : p.raw.extension? = p.extension?.map encode := by
  rw [RawPath.extension?, lastName?_raw, extension?]
  cases p.lastName? with
  | none => rfl
  | some found =>
    obtain ⟨before, name⟩ := found
    have hext : (name.takeWhile (· != '.')).flatMap reversedChar =
        (encode (String.ofList (name.takeWhile (· != '.')).reverse)).reverse := flatMap_reversedChar _
    have hstem : ((name.dropWhile (· != '.')).drop 1).flatMap reversedChar = [] ↔ (name.dropWhile (· != '.')).drop 1 = [] :=
      flatMap_reversedChar_inj _ []
    show RawPath.extensionOf (name.flatMap reversedChar) = _
    rw [RawPath.extensionOf, ascii_dot.behind, ascii_dot.takeWhile, hext, List.reverse_reverse]
    simp only [hstem]
    show _ = Option.map encode (Option.bind (splitExtension name).2 fun e => some (String.ofList e.reverse))
    rw [splitExtension]
    split <;> rfl

/-- A text and its bytes get the extension alike. -/
theorem raw_ofDocument (p : FilePath) : p.ofDocument.raw = p.raw.ofDocument := by
  have hext : p.raw.extension? = some RawPath.documentExtension ↔ p.extension? = some documentExtension := by
    rw [extension?_raw, RawPath.documentExtension, Option.map_eq_some_iff]
    constructor
    · rintro ⟨s, hs, he⟩
      rw [hs, encode_injective he]
    · exact fun h => ⟨_, h, rfl⟩
  rw [RawPath.ofDocument, ofDocument]
  simp only [hext]
  split
  · rfl
  · simp only [raw, RawPath.suffixed, RawPath.documentExtension, encode, String.toList_append, List.flatMap_append,
      List.append_assoc]
    rfl

theorem raw_injective {p q : FilePath} (h : p.raw = q.raw) : p = q := by
  obtain ⟨s⟩ := p
  obtain ⟨t⟩ := q
  exact congrArg mk (encode_injective (RawPath.mk.inj h))

end FilePath

/-- The path of any bytes with the extension of documents. The path given is a prefix of it. It has that extension, and is
    left alone when the extension is added again, exactly if the path given was not bare; a bare path gets the extension
    twice, and has it then. Where paths are texts, these are the paths of files, so that the source at the path of a source
    is that source exactly if the path given was not bare. -/
theorem ofDocument_extension (p : RawPath) :
    p.bytes <+: p.ofDocument.bytes ∧
    p.ofDocument.extension? = (if p.Bare then none else some RawPath.documentExtension) ∧
    p.ofDocument.ofDocument = (if p.Bare then p.suffixed.suffixed else p.ofDocument) ∧
    (p.ofDocument.ofDocument = p.ofDocument ↔ ¬p.Bare) ∧
    p.ofDocument.ofDocument.extension? = some RawPath.documentExtension ∧
    ∀ t : FilePath, t.ofDocument.raw = t.raw.ofDocument ∧ (Source.ofPath t.ofDocument = Source.ofPath t ↔ ¬t.raw.Bare) := by
  refine ⟨p.bytes_ofDocument, p.extension?_ofDocument, p.ofDocument_twice, p.ofDocument_idempotent, ?_, fun t => ?_⟩
  · rw [RawPath.extension?_ofDocument, if_neg p.not_bare_ofDocument]
  · refine ⟨t.raw_ofDocument, ?_⟩
    rw [← RawPath.ofDocument_idempotent, ← t.raw_ofDocument, ← FilePath.raw_ofDocument]
    constructor
    · intro h
      rw [Source.file.inj h]
    · intro h
      exact congrArg Source.file (FilePath.raw_injective h)

/-- Behind a slash the extension is a name without one. The source at the path of the source is another file. -/
theorem ofDocument_slash :
    let p : FilePath := ⟨"d/"⟩
    p.raw.Bare ∧ Source.ofPath p = .file ⟨"d/.mobf"⟩ ∧ p.ofDocument.extension? = none ∧
      Source.ofPath p.ofDocument = .file ⟨"d/.mobf.mobf"⟩ := by
  decide

end TypedDoc.Host
