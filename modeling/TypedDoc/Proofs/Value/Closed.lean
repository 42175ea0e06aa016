/-
  TypedDoc.Proofs.Value.Closed — what passes from the parts of a decoder to the whole holds of
  the readers of timestamps, containers and payloads.

  On the way it is seen that no check among them blames anyone but the data: what a setter
  says of a field that is out of range, the reader says of the bytes (`blameBytes`).

  The induction of `Closed.takePayload` is on the levels left, as in the reader; entries run
  down with their budget and elements with their count.
-/

import TypedDoc.Proofs.Wire.Closed
import TypedDoc.Value.Decode

namespace TypedDoc

open Wire

/-! ## Checks -/

theorem SubSecond.blamesData_ofWire (raw : Nat) : BlamesData (ofWire raw) := by
  have hunit : BlamesData (SubSecondUnit.ofTag (raw / 1024)) := .ite (.ok _) (.ite (.ok _) (.ite (.ok _) (.error rfl)))
  unfold ofWire
  cases hr : SubSecondUnit.ofTag (raw / 1024) with
  | ok unit => exact .ok _
  | error e => exact .error (hunit e hr)

theorem UtcOffset.blamesData_ofWire (raw : UInt8) : BlamesData (ofWire raw) :=
  .ite (.error rfl) (.ite (.ok _) (.ite (.error rfl) (.ok _)))

theorem Timestamp.blamesData_checkRange (field : String) (lo hi value : UInt8) :
    BlamesData (blameBytes (checkRange field lo hi value)) := by
  unfold checkRange
  split
  · exact .ok _
  · exact .error rfl

theorem Registry.blamesData_kindOf (reg : Registry) (id : UInt8) : BlamesData (reg.kindOf id) := by
  unfold kindOf
  split
  · exact .ok _
  · exact .error rfl

namespace Wire.Closed

variable {P : ∀ {α : Type}, Decoder α → Prop} (hP : Closed P)

include hP

/-! ## Timestamps -/

theorem field {α : Type} {take : Decoder α} (c weight : UInt8) (h : P take) : P (Timestamp.field c weight take) :=
  hP.early none (hP.map some h)

theorem smallField (name : String) (lo hi : UInt8) : P (Timestamp.smallField (Timestamp.checkRange name lo hi)) :=
  hP.bind hP.takeByte fun value => hP.settled (Timestamp.blamesData_checkRange name lo hi value)

theorem timestamp : P Timestamp.read := by
  unfold Timestamp.read
  refine hP.bind hP.takeByte fun c => hP.check rfl ?_
  refine hP.bind (hP.field c 128 (hP.map _ (hP.takeNat 2))) fun year => ?_
  refine hP.bind (hP.field c 64 (hP.smallField _ _ _)) fun month => ?_
  refine hP.bind (hP.field c 32 (hP.smallField _ _ _)) fun day => ?_
  refine hP.bind (hP.field c 16 (hP.smallField _ _ _)) fun hour => ?_
  refine hP.bind (hP.field c 8 (hP.smallField _ _ _)) fun minute => ?_
  refine hP.bind (hP.field c 4 (hP.smallField _ _ _)) fun second => ?_
  refine hP.bind (hP.field c 2 (hP.bind (hP.takeNat 2) fun raw => hP.settled (SubSecond.blamesData_ofWire raw))) fun subSecond => ?_
  refine hP.bind (hP.field c 1 (hP.bind hP.takeByte fun raw => hP.settled (UtcOffset.blamesData_ofWire raw))) fun offset => ?_
  exact hP.pure _

/-! ## Containers -/

section

variable {reg : Registry} {c : Charset} {payload : Kind → Decoder Payload}

theorem takeEntries (h : ∀ k, P (payload k)) (budget : Nat) (es : List (String × Value)) :
    P (TypedDoc.takeEntries reg c payload budget es) := by
  induction budget generalizing es with
  | zero => exact hP.throw _ rfl
  | succ n ih =>
    refine hP.bind hP.takeByte fun id => hP.early es ?_
    refine hP.bind (hP.settled (reg.blamesData_kindOf id)) fun kind => hP.bind (hP.takeString c) fun name => ?_
    exact hP.bind (h kind) fun p => ih _

theorem takeMany {α : Type} {one : Decoder α} (h : P one) (count : Nat) (acc : List α) :
    P (TypedDoc.takeMany one count acc) := by
  induction count generalizing acc with
  | zero => exact hP.pure _
  | succ n ih => exact hP.bind h fun a => ih _

theorem takeList (h : ∀ k, P (payload k)) : P (TypedDoc.takeList reg c payload) := by
  refine hP.bind hP.takeByte fun id => hP.early [] ?_
  refine hP.bind (hP.settled (reg.blamesData_kindOf id)) fun kind => hP.bind (hP.takeNat 4) fun count => hP.takeMany ?_ count []
  exact hP.bind (hP.takeString c) fun name => hP.bind (h kind) fun p => hP.pure _

theorem takeArray (h : ∀ k, P (payload k)) : P (TypedDoc.takeArray reg payload) := by
  refine hP.bind hP.takeByte fun id => hP.early [] ?_
  refine hP.bind (hP.settled (reg.blamesData_kindOf id)) fun kind => hP.check rfl ?_
  exact hP.bind (hP.takeNat 4) fun count => hP.takeMany (hP.bind (h kind) fun p => hP.pure _) count []

end

/-! ## Payloads -/

theorem takePayload (reg : Registry) (c : Charset) (budget levels : Nat) (k : Kind) :
    P (TypedDoc.takePayload reg c budget levels k) := by
  induction levels generalizing k with
  | zero => exact hP.throw _ rfl
  | succ n ih =>
    cases k with
    | object => exact hP.bind (hP.takeEntries ih budget []) fun es => hP.pure _
    | byte => exact hP.bind (hP.bind (hP.takeNat 1) fun _ => hP.pure _) fun v => hP.pure _
    | boolean => exact hP.bind (hP.bind hP.takeByte fun _ => hP.pure _) fun v => hP.pure _
    | short => exact hP.bind (hP.bind (hP.takeNat 2) fun _ => hP.pure _) fun v => hP.pure _
    | int => exact hP.bind (hP.bind (hP.takeNat 4) fun _ => hP.pure _) fun v => hP.pure _
    | long => exact hP.bind (hP.bind (hP.takeNat 8) fun _ => hP.pure _) fun v => hP.pure _
    | float => exact hP.bind (hP.bind (hP.takeNat 4) fun _ => hP.pure _) fun v => hP.pure _
    | double => exact hP.bind (hP.bind (hP.takeNat 8) fun _ => hP.pure _) fun v => hP.pure _
    | string => exact hP.bind (hP.takeString c) fun v => hP.pure _
    | timestamp => exact hP.bind hP.timestamp fun v => hP.pure _
    | list => exact hP.bind (hP.takeList ih) fun xs => hP.pure _
    | array => exact hP.bind (hP.takeArray ih) fun xs => hP.pure _

end Wire.Closed

end TypedDoc
