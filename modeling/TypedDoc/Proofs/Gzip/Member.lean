/-
  TypedDoc.Proofs.Gzip.Member — what is read of a gzip member, and how much it depends on
  the stream that holds it.

  Of a broken stream nothing but a beginning of the contents comes (`unpack_bytes`). Of a
  whole one all of them do, if its deflate stream comes to its end (`unpack_finished`).

  A member is read to its end without a fault exactly if its deflate stream ends and the
  trailer behind it fits (`drain_unpack_iff`); nothing behind that is looked at
  (`unpack_append`). How the stream is cut does not show, unless the deflate stream stops
  short (`unpack_alike`). What was packed can be read to its end (`drain_pack`).
-/

import TypedDoc.Proofs.Gzip.Delivery
import TypedDoc.Proofs.Gzip.Inflate
import TypedDoc.Proofs.Gzip.Stored
import TypedDoc.Proofs.Wire.Cuts
import TypedDoc.Proofs.Wire.Supply

namespace TypedDoc.Gzip

open Wire

/-! ## Headers -/

theorem local_zeroTerminated (fuel : Nat) : Local (zeroTerminated fuel) := by
  induction fuel with
  | zero => exact (Local.exactly 1).bind fun bs => .ite (.pure bs) (.throw _)
  | succ n ih =>
    exact (Local.exactly 1).bind fun bs => .ite (.pure bs) (ih.bind fun rest => .pure (bs ++ rest))

theorem local_extraField : Local extraField :=
  (Local.exactly 2).bind fun size => (Local.exactly _).bind fun body => .pure (size ++ body)

theorem local_optionalPart {flags weight : UInt8} {part : Decoder (List UInt8)} (h : Local part) :
    Local (optionalPart flags weight part) := by
  unfold optionalPart
  exact .ite (.pure []) h

theorem local_header : Local header := by
  unfold header
  refine (Local.exactly 10).bind fun fixed => .check ?_
  refine (local_optionalPart local_extraField).bind fun extra => ?_
  refine (local_optionalPart (local_zeroTerminated _)).bind fun name => ?_
  refine (local_optionalPart (local_zeroTerminated _)).bind fun comment => ?_
  exact (local_optionalPart (Local.exactly 2)).bind fun check => .ite (.throw _) (.pure ())

theorem takes_optionalPart {flags weight : UInt8} (part : Decoder (List UInt8)) (h : flags &&& weight = 0) :
    Takes (optionalPart flags weight part) [] [] := by
  unfold optionalPart
  rw [if_pos h]
  exact takes_pure []

/-- The header that `pack` writes. -/
theorem takes_plainHeader : Takes header plainHeader () := by
  have hflags : plainHeader.getD 3 0 = 0 := rfl
  have hrest : Takes header (plainHeader ++ ([] ++ ([] ++ ([] ++ ([] ++ []))))) () := by
    unfold header
    refine (takes_exactly rfl).bind ?_
    simp only [hflags]
    rw [if_neg (by decide)]
    refine (takes_optionalPart _ rfl).bind ((takes_optionalPart _ rfl).bind ((takes_optionalPart _ rfl).bind
      ((takes_optionalPart _ rfl).bind ?_)))
    rw [if_neg fun h => h.1 rfl]
    exact takes_pure ()
  exact hrest

/-! ## Contents -/

/-- The contents as far as they are known. -/
def contents (packed : List UInt8) : List UInt8 := (inflate packed).bytes.map (·.byte)

theorem contents_mono {packed packed' : List UInt8} (h : packed <+: packed') : contents packed <+: contents packed' := by
  obtain ⟨more, rfl⟩ := h
  exact (inflate_append packed more).map _

/-- The bytes behind a header, in a stream without a fault. -/
theorem header_takes {s : Supply} {hb packed : List UInt8} (h : Takes header hb ()) (hs : s.pieces.flatten = hb ++ packed)
    (hp : s.parting = []) : ∃ body, header s = .ok () body ∧ body.bytes = packed := by
  obtain ⟨body, h1, h2, h3, -⟩ := h s packed hs
  refine ⟨body, h1, ?_⟩
  unfold Supply.bytes
  rw [h2, h3, hp, List.append_nil]

/-- A header that was read, and what is behind it. -/
theorem header_ok {s body : Supply} {ending : Option Error} (hp : s.parting = []) (h : header { s with ending } = .ok () body) :
    ∃ hb, s.pieces.flatten = hb ++ body.bytes ∧ Takes header hb () := by
  obtain ⟨hb, took, takes⟩ := local_header _ _ _ h
  obtain ⟨-, hbytes⟩ := took.whole hp
  refine ⟨hb, ?_, takes⟩
  rw [← hbytes]
  show _ = s.pieces.flatten ++ s.parting
  rw [hp, List.append_nil]

/-- If anything comes of a stream that should hold a member, it is a beginning of the contents. -/
theorem unpack_bytes {s : Supply} (hp : s.parting = []) (hne : (unpack s).bytes ≠ []) :
    ∃ hb packed, s.pieces.flatten = hb ++ packed ∧ Takes header hb () ∧ (unpack s).bytes <+: contents packed := by
  unfold unpack at hne ⊢
  simp only at hne ⊢
  split at hne
  · exact absurd rfl hne
  · rename_i body hh
    obtain ⟨hb, hflat, takes⟩ := header_ok hp hh
    exact ⟨hb, body.bytes, hflat, takes, deliver_bytes _ _ _ _⟩

/-- Of a stream without a fault all of the contents come, if the deflate stream comes to its end. -/
theorem unpack_finished {s : Supply} {hb packed : List UInt8} {used : Nat} (h : Takes header hb ())
    (hs : s.pieces.flatten = hb ++ packed) (hp : s.parting = []) (he : s.ending = none)
    (hf : (inflate packed).outcome = .finished used) : (unpack s).pieces.flatten = contents packed := by
  unfold unpack
  simp only
  obtain ⟨body, h1, h2⟩ := header_takes (s := { s with ending := some (s.ending.getD (.truncatedStream .envelope)) }) h hs hp
  rw [h1]
  simp only [h2]
  exact deliver_finished hf he _ _ _

/-! ## To the end -/

/-- Behind the last of the contents there is what the trailer answers. -/
theorem unpack_close {s : Supply} {hb packed : List UInt8} {used : Nat} (h : Takes header hb ())
    (hs : s.pieces.flatten = hb ++ packed) (hp : s.parting = []) (he : s.ending = none)
    (hf : (inflate packed).outcome = .finished used) :
    (unpack s).parting = [] ∧
      (unpack s).ending = ending (.truncatedStream .envelope) (packed.drop used) (contents packed) := by
  obtain ⟨body, h1, h2⟩ := header_takes (s := { s with ending := some (s.ending.getD (.truncatedStream .envelope)) }) h hs hp
  obtain ⟨hparting, hending⟩ := deliver_close (p := ⟨(inflate packed).outcome, s.ending,
    ending (s.ending.getD (.truncatedStream .envelope)) (packed.drop used) (contents packed)⟩) hf he 0
    (pieceEnds 0 body.pieces) (inflate packed).bytes
  unfold unpack
  simp only
  rw [h1]
  simp only [h2, hf] at hparting hending ⊢
  refine ⟨hparting, hending.trans ?_⟩
  rw [he]
  rfl

theorem length_trailer (bs : List UInt8) : (trailer bs).length = 8 := by
  unfold trailer
  rw [List.length_append, length_littleEndian, length_littleEndian]

/-- A trailer that fits is all there. -/
theorem length_of_trailerFits {bytes contents : List UInt8} (h : trailerFits bytes contents = true) : 8 ≤ bytes.length := by
  have hlen := congrArg List.length (eq_of_beq h)
  rw [List.length_take, length_trailer] at hlen
  omega

theorem ending_eq_none {cut : Error} {bytes contents : List UInt8} :
    ending cut bytes contents = none ↔ trailerFits bytes contents = true := by
  unfold ending
  constructor
  · intro h
    split at h
    · cases h
    · split at h
      · assumption
      · cases h
  · intro h
    rw [if_neg (Nat.not_lt.2 (length_of_trailerFits h)), if_pos h]

theorem drain_eq_ok {s : Supply} {bs : List UInt8} : s.drain = .ok bs ↔ s.ending = none ∧ s.bytes = bs := by
  unfold Supply.drain
  cases s.ending with
  | none => exact ⟨fun h => ⟨rfl, Except.ok.inj h⟩, fun h => congrArg Except.ok h.2⟩
  | some e => exact ⟨nofun, nofun⟩

theorem drain_unpack_iff {bs hb packed inflated : List UInt8} (h : Takes header hb ()) (hbs : bs = hb ++ packed) :
    (unpack (.ofBytes bs)).drain = .ok inflated ↔
      inflated = contents packed ∧
        ∃ used, (inflate packed).outcome = .finished used ∧ trailerFits (packed.drop used) (contents packed) = true := by
  have hs : (Supply.ofBytes bs).pieces.flatten = hb ++ packed := by rw [Supply.flatten_ofBytes, hbs]
  rw [drain_eq_ok]
  by_cases hfin : ∃ used, (inflate packed).outcome = .finished used
  · obtain ⟨used, hf⟩ := hfin
    obtain ⟨hparting, hending⟩ := unpack_close h hs rfl rfl hf
    have hbytes : (unpack (.ofBytes bs)).bytes = contents packed := by
      unfold Supply.bytes
      rw [hparting, List.append_nil, unpack_finished h hs rfl rfl hf]
    rw [hending, hbytes, ending_eq_none]
    constructor
    · rintro ⟨hfits, rfl⟩
      exact ⟨rfl, used, hf, hfits⟩
    · rintro ⟨rfl, used', hf', hfits⟩
      rw [hf] at hf'
      cases hf'
      exact ⟨hfits, rfl⟩
  · have hne : (unpack (.ofBytes bs)).ending ≠ none := by
      obtain ⟨body, h1, h2⟩ := header_takes (s := { Supply.ofBytes bs with ending := some (.truncatedStream .envelope) }) h hs rfl
      unfold unpack
      simp only [Supply.ofBytes, Option.getD_none] at h1 ⊢
      rw [h1]
      simp only [h2]
      exact deliver_unfinished (fun used hf => hfin ⟨used, hf⟩) _ _ _
    constructor
    · intro hdrain
      exact absurd hdrain.1 hne
    · rintro ⟨-, used, hf, -⟩
      exact absurd ⟨used, hf⟩ hfin

theorem exists_header_of_drain {bs inflated : List UInt8} (h : (unpack (.ofBytes bs)).drain = .ok inflated) :
    ∃ hb packed, bs = hb ++ packed ∧ Takes header hb () := by
  have he := (drain_eq_ok.1 h).1
  unfold unpack at he
  simp only at he
  split at he
  · cases he
  · rename_i body hh
    obtain ⟨hb, hflat, takes⟩ := header_ok rfl hh
    exact ⟨hb, body.bytes, (Supply.flatten_ofBytes bs).symm.trans hflat, takes⟩

/-- A member that can be read to its end is read the same with anything behind it. -/
theorem unpack_append {bs inflated : List UInt8} (h : (unpack (.ofBytes bs)).drain = .ok inflated) (rest : List UInt8) :
    Alike (unpack (.ofBytes (bs ++ rest))) (.ofBytes inflated) := by
  obtain ⟨hb, packed, rfl, takes⟩ := exists_header_of_drain h
  obtain ⟨rfl, used, hf, hfits⟩ := (drain_unpack_iff takes rfl).1 h
  have hlen := length_of_trailerFits hfits
  rw [List.length_drop] at hlen
  have hsame := inflate_append_of_finished hf rest
  have hf' : (inflate (packed ++ rest)).outcome = .finished used := by rw [hsame, hf]
  have hfits' : trailerFits ((packed ++ rest).drop used) (contents (packed ++ rest)) = true := by
    unfold trailerFits contents at hfits ⊢
    rw [hsame, List.drop_append_of_le_length (by omega), List.take_append_of_le_length (by rw [List.length_drop]; exact hlen)]
    exact hfits
  have hs : (Supply.ofBytes (hb ++ packed ++ rest)).pieces.flatten = hb ++ (packed ++ rest) := by
    rw [Supply.flatten_ofBytes, List.append_assoc]
  obtain ⟨hparting, hending⟩ := unpack_close takes hs rfl rfl hf'
  refine ⟨?_, hparting, rfl, hending.trans (ending_eq_none.2 hfits')⟩
  rw [unpack_finished takes hs rfl rfl hf', Supply.flatten_ofBytes, contents, contents, hsame]

/-! ## However it is cut -/

theorem blind_zeroTerminated (fuel : Nat) : Blind (zeroTerminated fuel) := by
  induction fuel with
  | zero => exact (blind_exactly 1).bind fun bs => .ite (blind_pure bs) (blind_throw _)
  | succ n ih =>
    exact (blind_exactly 1).bind fun bs => .ite (blind_pure bs) (ih.bind fun rest => blind_pure (bs ++ rest))

theorem blind_optionalPart {flags weight : UInt8} {part : Decoder (List UInt8)} (h : Blind part) :
    Blind (optionalPart flags weight part) := .ite (blind_pure []) h

theorem blind_header : Blind header := by
  unfold header
  have hextra : Blind extraField := (blind_exactly 2).bind fun size => (blind_exactly _).bind fun body => blind_pure (size ++ body)
  refine (blind_exactly 10).bind fun fixed => .check ?_
  refine (blind_optionalPart hextra).bind fun extra => ?_
  refine (blind_optionalPart (blind_zeroTerminated _)).bind fun name => ?_
  refine (blind_optionalPart (blind_zeroTerminated _)).bind fun comment => ?_
  exact (blind_optionalPart (blind_exactly 2)).bind fun check => .ite (blind_throw _) (blind_pure ())

/-- The header is in order, but the deflate stream behind it never comes to its end. -/
def unfinished (bs : List UInt8) : Bool :=
  match header (.ofBytes bs) with
  | .error .. => false
  | .ok _ body =>
    match (inflate body.bytes).outcome with
    | .finished _ => false
    | .starved | .corrupt _ => true

theorem unfinished_iff {bs hb packed : List UInt8} (h : Takes header hb ()) (hbs : bs = hb ++ packed) :
    unfinished bs = true ↔ ∀ used, (inflate packed).outcome ≠ .finished used := by
  obtain ⟨body, h1, h2⟩ := header_takes h (by rw [Supply.flatten_ofBytes, hbs]) (s := .ofBytes bs) rfl
  unfold unfinished
  rw [h1]
  simp only [h2]
  cases (inflate packed).outcome with
  | finished used => exact ⟨nofun, fun h => absurd rfl (h used)⟩
  | starved => exact ⟨fun _ _ => nofun, fun _ => rfl⟩
  | corrupt seen => exact ⟨fun _ _ => nofun, fun _ => rfl⟩

theorem finished_of_not_unfinished {bs hb packed : List UInt8} (h : Takes header hb ()) (hbs : bs = hb ++ packed)
    (hu : unfinished bs = false) : ∃ used, (inflate packed).outcome = .finished used := by
  have hno := mt (unfinished_iff h hbs).2 (by rw [hu]; exact Bool.false_ne_true)
  push Not at hno
  exact hno

theorem magic_of_unfinished {bs : List UInt8} (h : unfinished bs = true) : magic <+: bs := by
  unfold unfinished at h
  split at h
  · cases h
  · rename_i body hh
    unfold header at hh
    obtain ⟨fixed, s₁, hfixed, hrest⟩ := bind_ok hh
    obtain ⟨-, took⟩ := exactly_ok hfixed
    have hheld := took.held
    rw [Supply.bytes_ofBytes] at hheld
    dsimp only at hrest
    split at hrest
    · obtain ⟨_, _, hthrow, -⟩ := bind_ok hrest
      exact (throw_ne_ok hthrow).elim
    · rename_i hok
      have hmagic : fixed.take 3 = magic ++ [8] := Decidable.not_not.1 (not_or.1 hok).1
      exact (List.prefix_append magic [8]).trans (hmagic ▸ (List.take_prefix 3 fixed).trans ((List.prefix_append _ _).trans hheld))

theorem unpack_broken {s t : Supply} {e : Error} (he : s.ending = none)
    (h : header { s with ending := some (.truncatedStream .envelope) } = .error e t) : unpack s = .broken e := by
  unfold unpack
  simp only [he, Option.getD_none, h]

/-- Where a deflate stream stops short, how much of the contents is handed out before hangs
    on the pieces; nowhere else do they show. -/
theorem unpack_alike {s s' : Supply} {bs : List UInt8} (h : Alike s s') (he : s.ending = none) (hs : s.pieces.flatten = bs)
    (hu : unfinished bs = false) : Alike (unpack s) (unpack s') := by
  have he' : s'.ending = none := h.ending.symm.trans he
  have hcut : Alike { s with ending := some (.truncatedStream .envelope) }
      { s' with ending := some (.truncatedStream .envelope) } := ⟨h.flatten, h.parting, h.parting', rfl⟩
  have hr := blind_header _ _ hcut
  cases hh : header { s with ending := some (.truncatedStream .envelope) } with
  | error e t =>
    rw [hh] at hr
    obtain ⟨t', hh'⟩ : ∃ t', header { s' with ending := some (.truncatedStream .envelope) } = .error e t' := by
      generalize header { s' with ending := some (.truncatedStream .envelope) } = r at hr ⊢
      cases hr with
      | error => exact ⟨_, rfl⟩
    rw [unpack_broken he hh, unpack_broken he' hh']
    exact ⟨rfl, rfl, rfl, rfl⟩
  | ok _ body =>
    obtain ⟨hb, hflat, takes⟩ := header_ok h.parting hh
    obtain ⟨used, hf⟩ := finished_of_not_unfinished takes (hs.symm.trans hflat) hu
    have hflat' := h.flatten.symm.trans hflat
    obtain ⟨hp, hend⟩ := unpack_close takes hflat h.parting he hf
    obtain ⟨hp', hend'⟩ := unpack_close takes hflat' h.parting' he' hf
    refine ⟨?_, hp, hp', hend.trans hend'.symm⟩
    rw [unpack_finished takes hflat h.parting he hf, unpack_finished takes hflat' h.parting' he' hf]

/-! ## What was packed -/

theorem magic_le_pack (bs : List UInt8) : magic <+: pack bs := by
  unfold pack plainHeader
  simp only [List.append_assoc]
  exact List.prefix_append _ _

/-- What was packed can be read to its end. -/
theorem drain_pack (bs : List UInt8) : (unpack (.ofBytes (pack bs))).drain = .ok bs := by
  obtain ⟨hbytes, hf⟩ := inflate_storedBlocks bs (trailer bs)
  have hbs : pack bs = plainHeader ++ (storedBlocks (bs.length / storedLimit) bs ++ trailer bs) := by
    unfold pack
    rw [List.append_assoc]
  refine (drain_unpack_iff takes_plainHeader hbs).2 ⟨hbytes.symm, _, hf, ?_⟩
  unfold contents
  rw [List.drop_left, hbytes]
  unfold trailerFits
  rw [List.take_of_length_le (Nat.le_of_eq (length_trailer bs)), beq_self_eq_true]

end TypedDoc.Gzip
