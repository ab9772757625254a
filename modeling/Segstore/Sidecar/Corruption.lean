import Segstore.Kernel.Crc32
import Segstore.Sidecar.Envelope

/-!
# Corrupt sidecars

With the check sum of `crc32fast` an envelope of which one byte was changed is
no envelope of any payload under the same tags: a change before the payload
leaves the payload and so the check sum as they are, and a change of the payload
leaves the stored check sum.
-/

namespace Segstore

namespace SidecarEnvelope

variable {tags : SidecarTags}

/-- Everything before the payload. -/
def head (tags : SidecarTags) (p : List UInt8) : List UInt8 :=
  tags.fixed ++ leBytes 4 (Crc32.hash (tags.fixed ++ (tags.recipe ++ p))).toNat ++ tags.recipe

theorem length_head (tags : SidecarTags) (p : List UInt8) :
    (head tags p).length = 28 + tags.recipe.length := by
  simp only [head, List.length_append, SidecarTags.length_fixed, length_leBytes]

theorem head_append (tags : SidecarTags) (p : List UInt8) :
    head tags p ++ p = tags.envelope Crc32.hash p := by
  rw [head, SidecarTags.envelope, List.append_assoc]

/-- The stored check sum tells payloads apart that differ in one byte. -/
theorem head_ne_of_one {middle back : List UInt8} {x y : UInt8} (hxy : x ≠ y) :
    head tags (middle ++ x :: back) ≠ head tags (middle ++ y :: back) := by
  intro h
  rw [head, head, List.append_left_inj, List.append_right_inj] at h
  have hsum := congrArg leValue h
  rw [leValue_leBytes (UInt32.toNat_lt _), leValue_leBytes (UInt32.toNat_lt _),
    UInt32.toNat_inj] at hsum
  refine Crc32.hash_ne_of_one (tags.fixed ++ (tags.recipe ++ middle)) back hxy ?_
  simpa only [List.append_assoc] using hsum

/-- Two envelopes do not differ in one byte. -/
theorem envelope_eq_of_one {p p' front back : List UInt8} {x y : UInt8}
    (h : tags.envelope Crc32.hash p = front ++ x :: back)
    (h' : tags.envelope Crc32.hash p' = front ++ y :: back) : x = y := by
  rw [← head_append] at h h'
  have hlen : (head tags p).length = (head tags p').length := by
    rw [length_head, length_head]
  by_contra hxy
  -- a change of the payload
  have hpayload : ∀ middle, front = head tags p ++ middle → p = middle ++ x :: back → False := by
    rintro middle rfl rfl
    rw [List.append_assoc] at h'
    obtain ⟨hhead, hp'⟩ := List.append_inj h' hlen.symm
    rw [hp'] at hhead
    exact head_ne_of_one hxy hhead.symm
  rcases List.append_eq_append_iff.mp h with ⟨middle, hfront, hp⟩ | ⟨middle, hhead, hback⟩
  · exact hpayload middle hfront hp
  · cases middle with
    | nil => exact hpayload [] (by simpa using hhead.symm) (by simpa using hback.symm)
    | cons z middle =>
        -- a change before the payload
        obtain ⟨rfl, rfl⟩ := List.cons.inj (hback.trans (List.cons_append ..))
        rw [← List.cons_append, ← List.append_assoc] at h'
        obtain ⟨hhead', rfl⟩ := List.append_inj h' (by
          rw [← hlen, hhead, List.length_append, List.length_append, List.length_cons,
            List.length_cons])
        rw [hhead] at hhead'
        exact hxy (List.cons.inj (List.append_cancel_left hhead')).1

/-- Whatever byte of a sidecar is changed, decoding with its tags fails. -/
theorem corrupt_byte_rejected (tags : SidecarTags) (payload front back : List UInt8)
    (x y : UInt8)
    (hencode : encode Crc32.hash tags payload = some (.ok (front ++ x :: back)))
    (hchanged : y ≠ x) :
    ∃ e, decode Crc32.hash tags (front ++ y :: back) = some (.error e) := by
  obtain ⟨r, hr, hok⟩ := decode_total Crc32.hash tags (front ++ y :: back)
  cases r with
  | error e => exact ⟨e, hr⟩
  | ok p =>
      rw [encode_eq] at hencode
      split at hencode
      · cases hencode
      · obtain ⟨-, hp⟩ := decode_eq_ok_iff.mp hr
        have hpayload := Except.ok.inj (Option.some.inj hencode)
        exact absurd (envelope_eq_of_one hp.symm hpayload) hchanged

/-- The lowest bit of the payload has flipped. -/
theorem corrupt_byte_rejected_last :
    ∃ tags : SidecarTags, ∃ front, encode Crc32.hash tags [7] = some (.ok (front ++ [7])) ∧
      ∃ e, decode Crc32.hash tags (front ++ [6]) = some (.error e) := by
  refine ⟨⟨.replicate 8 0, 2, 7, [1]⟩, head ⟨.replicate 8 0, 2, 7, [1]⟩ [7], ?_, ?_⟩
  · rw [encode_eq, if_neg (by decide), head_append]
  · refine corrupt_byte_rejected _ [7] _ [] 7 6 ?_ (by decide)
    rw [encode_eq, if_neg (by decide), head_append]

end SidecarEnvelope

end Segstore
