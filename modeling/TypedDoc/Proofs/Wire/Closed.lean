/-
  TypedDoc.Proofs.Wire.Closed — properties that a decoder has if its parts have them.

  Every decoder of a document is put together from five things: a result that is there
  already, a failure that blames the data, a number of bytes, the body of a string, and one
  decoder after another. A property that passes through them is `Closed`, and what holds of
  these parts holds of the readers of numbers, strings, timestamps and trees
  (`Closed.takeString` here, `Closed.takePayload` for a payload). Those that are used are that
  the cuts of a stream do not show (`Blind`), that nothing behind the bytes taken does
  (`Decisive`), that the caller is not blamed (`Blameless`), and that no bytes are added
  (`Shrinks`).

  The body of a string is a part of its own: it reads as far as the stream goes and only
  then looks at the length, so its two halves by themselves have neither property.
-/

import TypedDoc.Wire.Codec

namespace TypedDoc.Wire

/-- What follows the count of a string. -/
def stringBody (c : Charset) (declared : Nat) : Decoder String := do
  let bs ← upTo declared
  if bs.length = declared then settled (c.decode bs)
  else throw (.truncatedStream (.stringBody declared bs.length))

theorem takeString_eq (c : Charset) : takeString c = takeCount >>= stringBody c := rfl

/-- If it is a failure, the data is at fault. -/
def BlamesData {α : Type} (r : Except Error α) : Prop := ∀ e, r = .error e → e.isDataError = true

namespace BlamesData

variable {α : Type}

theorem ok (a : α) : BlamesData (.ok a) := fun _ h => nomatch h

theorem error {e : Error} (h : e.isDataError = true) : BlamesData (.error e : Except Error α) := by
  intro e' he
  cases he
  exact h

theorem ite {p : Prop} [Decidable p] {r r' : Except Error α} (h : BlamesData r) (h' : BlamesData r') :
    BlamesData (if p then r else r') := by
  split
  · exact h
  · exact h'

end BlamesData

structure Closed (P : ∀ {α : Type}, Decoder α → Prop) : Prop where
  pure : ∀ {α : Type} (a : α), P (Pure.pure a : Decoder α)
  throw : ∀ {α : Type} (e : Error), e.isDataError = true → P (MonadExcept.throw e : Decoder α)
  bind : ∀ {α β : Type} {d : Decoder α} {f : α → Decoder β}, P d → (∀ a, P (f a)) → P (d >>= f)
  exactly : ∀ n, P (Wire.exactly n)
  stringBody : ∀ c n, P (Wire.stringBody c n)

namespace Closed

variable {P : ∀ {α : Type}, Decoder α → Prop} (hP : Closed P) {α β : Type}

include hP

theorem map {d : Decoder α} (f : α → β) (h : P d) : P (f <$> d) := by
  rw [map_eq_pure_bind]
  exact hP.bind h fun a => hP.pure (f a)

theorem settled {r : Except Error α} (h : BlamesData r) : P (Wire.settled r) := by
  cases r with
  | ok a => exact hP.pure a
  | error e => exact hP.throw e (h e rfl)

/-- A check before the rest. -/
theorem check {p : Prop} [Decidable p] {e : Error} {f : Unit → Decoder β} (he : e.isDataError = true) (h : P (f ())) :
    P (if p then MonadExcept.throw e >>= f else f ()) := by
  split
  · exact hP.bind (hP.throw e he) fun _ => h
  · exact h

/-- A result that may be there before the rest. -/
theorem early {p : Prop} [Decidable p] (a : α) {d : Decoder α} (h : P d) : P (if p then Pure.pure a else d) := by
  split
  · exact hP.pure a
  · exact h

theorem takeNat (width : Nat) : P (Wire.takeNat width) := hP.bind (hP.exactly width) fun _ => hP.pure _

theorem takeByte : P Wire.takeByte := hP.bind (hP.takeNat 1) fun _ => hP.pure _

theorem takeString (c : Charset) : P (Wire.takeString c) := by
  rw [takeString_eq]
  exact hP.bind (hP.takeNat 4) (hP.stringBody c)

end Closed

end TypedDoc.Wire
