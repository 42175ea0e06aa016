/-
  TypedDoc.Proofs.Wire.Outcome — what a decoder makes of the bytes it takes, be it a failure.

  - `Answers d bs o`: from any stream that has `bs` at hand, however it is cut and whatever
    comes behind, `d` takes exactly `bs` and has the outcome `o`. With a success for an
    outcome it is `Takes`.
  - `Refuses d bs e`: the outcome is `e` somewhere on the way through `bs`.
  - `Starves d bs`: a stream that ends before all of `bs` came is the reason why `d` fails,
    by its own fault if it has one.
  - `Decisive d`: whatever `d` made of a stream, other than finding it too short, both hold
    of the bytes taken. So nothing but those bytes counts, down to the last one.

  Sequencing keeps all of them, and `Decisive` is `Closed`.
-/

import TypedDoc.Proofs.Wire.Cuts

namespace TypedDoc.Wire

variable {α β : Type}

/-! ## Outcomes -/

def Answers (d : Decoder α) (bs : List UInt8) (o : Except Error α) : Prop :=
  ∀ (s : Supply) (rest : List UInt8), s.pieces.flatten = bs ++ rest →
    ∃ s', d s = settled o s' ∧ s'.pieces.flatten = rest ∧ s'.parting = s.parting ∧ s'.ending = s.ending

def Starves (d : Decoder α) (bs : List UInt8) : Prop :=
  ∀ s : Supply, s.parting = [] → s.pieces.flatten <+: bs → s.pieces.flatten ≠ bs →
    ∃ short s', d s = .error (s.ending.getD (.truncatedStream short)) s'

/-- The stream was found too short. -/
def Short (o : Except Error α) : Prop := ∃ short, o = .error (.truncatedStream short)

structure Decides (d : Decoder α) (bs : List UInt8) (o : Except Error α) : Prop where
  answers : Answers d bs o
  starves : Starves d bs

def Decisive (d : Decoder α) : Prop :=
  ∀ (s : Supply) (o : Except Error α) (s' : Supply), s.parting = [] → s.ending = none → d s = settled o s' → ¬Short o →
    ∃ bs, Took s bs s' ∧ Decides d bs o

theorem Takes.answers {d : Decoder α} {bs : List UInt8} {a : α} (h : Takes d bs a) : Answers d bs (.ok a) := h

/-- Every result is an outcome and what is left of the stream. -/
theorem exists_settled (r : EStateM.Result Error Supply α) : ∃ o s', r = settled o s' := by
  cases r with
  | ok a s' => exact ⟨.ok a, s', rfl⟩
  | error e s' => exact ⟨.error e, s', rfl⟩

theorem settled_inj {o o' : Except Error α} {s s' : Supply} (h : settled o s = settled o' s') : o = o' ∧ s = s' := by
  cases o with
  | ok a =>
    cases o' with
    | ok a' => cases h; exact ⟨rfl, rfl⟩
    | error e' => cases h
  | error e =>
    cases o' with
    | ok a' => cases h
    | error e' => cases h; exact ⟨rfl, rfl⟩

/-! ## Failures on the way -/

theorem answers_throw (e : Error) : Answers (throw e : Decoder α) [] (.error e) :=
  fun s _ h => ⟨s, rfl, h, rfl, rfl⟩

theorem Answers.bind_error {d : Decoder α} {bs : List UInt8} {e : Error} (h : Answers d bs (.error e)) (f : α → Decoder β) :
    Answers (d >>= f) bs (.error e) := by
  intro s rest hs
  obtain ⟨s', h1, h2⟩ := h s rest hs
  exact ⟨s', bind_eq_of_error f h1, h2⟩

theorem Takes.bind_answers {d : Decoder α} {f : α → Decoder β} {bs bs' : List UInt8} {a : α} {o : Except Error β}
    (h : Takes d bs a) (h' : Answers (f a) bs' o) : Answers (d >>= f) (bs ++ bs') o := by
  intro s rest hs
  obtain ⟨s', h1, h2, h3, h4⟩ := h s (bs' ++ rest) (by rw [hs, List.append_assoc])
  obtain ⟨s'', h1', h2', h3', h4'⟩ := h' s' rest h2
  exact ⟨s'', (bind_eq_of_ok f h1).trans h1', h2', h3'.trans h3, h4'.trans h4⟩

/-- Somewhere in `bs` the decoder fails with `e`, and looks no further. -/
def Refuses (d : Decoder α) (bs : List UInt8) (e : Error) : Prop := ∃ front, front <+: bs ∧ Answers d front (.error e)

theorem refuses_throw (bs : List UInt8) (e : Error) : Refuses (throw e : Decoder α) bs e :=
  ⟨[], List.nil_prefix, answers_throw e⟩

namespace Refuses

variable {d : Decoder α} {bs : List UInt8} {e : Error}

theorem of_eq {bs' : List UInt8} (h : Refuses d bs e) (heq : bs = bs') : Refuses d bs' e := heq ▸ h

theorem append (h : Refuses d bs e) (more : List UInt8) : Refuses d (bs ++ more) e := by
  obtain ⟨front, hle, ha⟩ := h
  exact ⟨front, hle.trans (List.prefix_append bs more), ha⟩

theorem bind (h : Refuses d bs e) (f : α → Decoder β) : Refuses (d >>= f) bs e := by
  obtain ⟨front, hle, ha⟩ := h
  exact ⟨front, hle, ha.bind_error f⟩

theorem error (h : Refuses d bs e) {s : Supply} {rest : List UInt8} (hs : s.pieces.flatten = bs ++ rest) :
    ∃ s', d s = .error e s' := by
  obtain ⟨front, ⟨more, rfl⟩, ha⟩ := h
  obtain ⟨s', h1, -⟩ := ha s (more ++ rest) (by rw [hs, List.append_assoc])
  exact ⟨s', h1⟩

end Refuses

theorem Takes.bind_refuses {d : Decoder α} {f : α → Decoder β} {bs bs' : List UInt8} {a : α} {e : Error}
    (h : Takes d bs a) (h' : Refuses (f a) bs' e) : Refuses (d >>= f) (bs ++ bs') e := by
  obtain ⟨front, hle, ha⟩ := h'
  exact ⟨bs ++ front, (List.prefix_append_right_inj bs).2 hle, h.bind_answers ha⟩

/-! ## Streams that are too short -/

theorem starves_nil (d : Decoder α) : Starves d [] := fun _ _ hle hne => absurd (List.prefix_nil.1 hle) hne

theorem Starves.bind {d : Decoder α} {bs : List UInt8} (h : Starves d bs) (f : α → Decoder β) : Starves (d >>= f) bs := by
  intro s hp hle hne
  obtain ⟨short, s', hs⟩ := h s hp hle hne
  exact ⟨short, s', bind_eq_of_error f hs⟩

/-- A beginning of two lists in a row ends in the first of them or in the second. -/
theorem prefix_append_cases {p bs bs' : List α} (h : p <+: bs ++ bs') :
    (p <+: bs ∧ p ≠ bs) ∨ ∃ q, q <+: bs' ∧ p = bs ++ q := by
  rcases List.prefix_or_prefix_of_prefix h (List.prefix_append bs bs') with hp | ⟨q, rfl⟩
  · by_cases heq : p = bs
    · exact .inr ⟨[], List.nil_prefix, by rw [heq, List.append_nil]⟩
    · exact .inl ⟨hp, heq⟩
  · exact .inr ⟨q, (List.prefix_append_right_inj bs).1 h, rfl⟩

theorem starves_append {d : Decoder α} {f : α → Decoder β} {bs bs' : List UInt8} {a : α} (h : Decides d bs (.ok a))
    (h' : Starves (f a) bs') : Starves (d >>= f) (bs ++ bs') := by
  intro s hp hle hne
  rcases prefix_append_cases hle with ⟨hle, hne⟩ | ⟨rest, hle, hrest⟩
  · exact h.starves.bind f s hp hle hne
  · obtain ⟨s', h1, h2, h3, h4⟩ := h.answers s rest hrest
    have hne' : s'.pieces.flatten ≠ bs' := fun heq => hne (by rw [hrest, ← h2, heq])
    obtain ⟨short, s'', hs⟩ := h' s' (h3.trans hp) (h2 ▸ hle) hne'
    rw [h4] at hs
    exact ⟨short, s'', (bind_eq_of_ok f h1).trans hs⟩

theorem length_take_ne {p bs : List α} (hle : p <+: bs) (hne : p ≠ bs) : (p.take bs.length).length ≠ bs.length := by
  intro heq
  have hlen := hle.length_le
  rw [List.length_take] at heq
  exact hne (hle.eq_of_length (by omega))

theorem starves_exactly {bs : List UInt8} {n : Nat} (hn : bs.length = n) : Starves (exactly n) bs := by
  intro s hp hle hne
  obtain ⟨hgot, -, -⟩ := s.take_whole hp n fun _ => n
  have hlt : (s.pieces.flatten.take n).length ≠ n := hn ▸ length_take_ne hle hne
  refine ⟨.fixedWidth, (s.take n fun _ => n).2, ?_⟩
  simp only [exactly, hgot, if_neg hlt]

theorem starves_stringBody (c : Charset) {bs : List UInt8} {n : Nat} (hn : bs.length = n) : Starves (stringBody c n) bs := by
  intro s hp hle hne
  obtain ⟨hgot, -, -⟩ := s.take_whole hp n Buffer.askAfter
  have hlt : (s.pieces.flatten.take n).length ≠ n := hn ▸ length_take_ne hle hne
  cases he : s.ending with
  | some e =>
    have hup : upTo n s = .error e (s.take n Buffer.askAfter).2 := by simp only [upTo, he, hgot, if_neg hlt]
    exact ⟨.fixedWidth, _, bind_eq_of_error _ hup⟩
  | none =>
    have hup : upTo n s = .ok (s.pieces.flatten.take n) (s.take n Buffer.askAfter).2 := by simp only [upTo, he, hgot]
    refine ⟨.stringBody n (s.pieces.flatten.take n).length, (s.take n Buffer.askAfter).2, ?_⟩
    refine (bind_eq_of_ok _ hup).trans ?_
    rw [if_neg hlt]
    rfl

/-! ## Decisive decoders -/

theorem decides_settled (o : Except Error α) : Decides (settled o) [] o :=
  ⟨fun s _ h => ⟨s, rfl, h, rfl, rfl⟩, starves_nil _⟩

theorem decisive_settled (o : Except Error α) : Decisive (settled o) := by
  intro s o' s' _ _ hs _
  obtain ⟨rfl, rfl⟩ := settled_inj hs
  exact ⟨[], .refl s, decides_settled o⟩

theorem Decides.of_error {d : Decoder α} {bs : List UInt8} {e : Error} (h : Decides d bs (.error e)) (f : α → Decoder β) :
    Decides (d >>= f) bs (.error e) := ⟨h.answers.bind_error f, h.starves.bind f⟩

theorem Decides.bind {d : Decoder α} {f : α → Decoder β} {bs bs' : List UInt8} {a : α} {o : Except Error β}
    (h : Decides d bs (.ok a)) (h' : Decides (f a) bs' o) : Decides (d >>= f) (bs ++ bs') o :=
  ⟨Takes.bind_answers h.answers h'.answers, starves_append h h'.starves⟩

theorem short_error {e : Error} (h : Short (.error e : Except Error α)) : Short (.error e : Except Error β) := by
  obtain ⟨short, h⟩ := h
  cases h
  exact ⟨short, rfl⟩

namespace Decisive

theorem bind {d : Decoder α} {f : α → Decoder β} (hd : Decisive d) (hf : ∀ a, Decisive (f a)) : Decisive (d >>= f) := by
  intro s o s'' hp he hs hshort
  obtain ⟨o₁, s', h1⟩ := exists_settled (d s)
  cases o₁ with
  | error e =>
    have heq : settled (.error e) s' = settled o s'' := (bind_eq_of_error f h1).symm.trans hs
    obtain ⟨rfl, rfl⟩ := settled_inj heq
    obtain ⟨bs, took, decides⟩ := hd s (.error e) s' hp he h1 fun h => hshort (short_error h)
    exact ⟨bs, took, decides.of_error f⟩
  | ok a =>
    obtain ⟨bs, took, decides⟩ := hd s (.ok a) s' hp he h1 fun ⟨_, h⟩ => nomatch h
    obtain ⟨bs', took', decides'⟩ :=
      hf a s' o s'' (took.whole hp).1 (took.ending.trans he) ((bind_eq_of_ok f h1).symm.trans hs) hshort
    exact ⟨bs ++ bs', took.trans took', decides.bind decides'⟩

theorem exactly (n : Nat) : Decisive (exactly n) := by
  intro s o s' hp he hs hshort
  cases o with
  | ok bs =>
    obtain ⟨hn, took⟩ := exactly_ok hs
    exact ⟨bs, took, (takes_exactly hn).answers, starves_exactly hn⟩
  | error e =>
    simp only [Wire.exactly, he] at hs
    split at hs
    · cases hs
    · cases hs
      exact absurd ⟨_, rfl⟩ hshort

theorem stringBody (c : Charset) (n : Nat) : Decisive (stringBody c n) := by
  intro s o s' hp he hs hshort
  have hup : upTo n s = .ok (s.take n Buffer.askAfter).1 (s.take n Buffer.askAfter).2 := by simp only [upTo, he]
  have hbody := (bind_eq_of_ok _ hup).symm.trans hs
  split at hbody
  · rename_i hn
    obtain ⟨rfl, rfl⟩ := settled_inj hbody
    refine ⟨_, s.take_took n Buffer.askAfter, ?_, starves_stringBody c hn⟩
    have hanswers : Answers (Wire.stringBody c n) ((s.take n Buffer.askAfter).1 ++ [])
        (c.decode (s.take n Buffer.askAfter).1) := by
      refine (takes_upTo hn).bind_answers ?_
      rw [if_pos hn]
      exact (decides_settled _).answers
    rw [List.append_nil] at hanswers
    exact hanswers
  · obtain ⟨rfl, -⟩ := settled_inj (o := .error _) hbody
    exact absurd ⟨_, rfl⟩ hshort

end Decisive

/-- Bytes that were taken once are needed to the last one. -/
theorem Decisive.starves {d : Decoder α} {bs : List UInt8} {a : α} (hd : Decisive d) (h : Takes d bs a) : Starves d bs := by
  obtain ⟨s', hs, hflat, hparting, -⟩ := h ⟨[bs], [], none⟩ [] (by simp)
  obtain ⟨bs', took, -, starves⟩ := hd ⟨[bs], [], none⟩ (.ok a) s' rfl rfl hs fun ⟨_, h⟩ => nomatch h
  have hbytes : bs = bs' := by
    have hw := (took.whole rfl).2
    simpa only [Supply.bytes, hflat, hparting, List.flatten_singleton, List.append_nil] using hw
  exact hbytes ▸ starves

theorem closed_decisive : Closed Decisive where
  pure a := decisive_settled (.ok a)
  throw e _ := decisive_settled (.error e)
  bind := Decisive.bind
  exactly := Decisive.exactly
  stringBody := Decisive.stringBody

end TypedDoc.Wire
