import Mathlib.Data.List.Induction

/-!
# Records Admitted to a Bounded Store

A store with space for `room` items is offered records one after another. A record has a text, and
a test says whether the store takes the record while it has so much space left. It takes the whole
text or nothing, and a record that is turned away does not keep out a later one.

## Main results

- `admitted_concat` : what one more offer does
- `admitted_sublist` : the admitted records are in the order of the offers
-/

namespace RainWebServer.Lib

variable {α β : Type} (fits : Nat → α → Bool) (text : α → List β) (room : Nat)

/-! ## §1 Offers -/

/-- Offer a record to a store that holds the texts of `held`. -/
def offer (held : List α) (a : α) : List α :=
  if fits (room - (held.flatMap text).length) a then held ++ [a] else held

/-- The records that are admitted, of those that are offered in this order. -/
def admitted (offers : List α) : List α := offers.foldl (offer fits text room) []

/-- One more offer. -/
theorem admitted_concat (offers : List α) (a : α) :
    admitted fits text room (offers ++ [a]) =
      offer fits text room (admitted fits text room offers) a := by
  rw [admitted, List.foldl_append]
  rfl

/-! ## §2 What is admitted -/

theorem admitted_sublist (offers : List α) :
    (admitted fits text room offers).Sublist offers := by
  -- from the last offer on
  induction offers using List.reverseRecOn with
  | nil => exact List.Sublist.refl []
  | append_singleton offers a ih =>
    rw [admitted_concat, offer]
    split
    · exact ih.append_right [a]
    · exact ih.trans (List.sublist_append_left offers [a])

end RainWebServer.Lib
