import DistWorkshops.Peers.Wire

/-!
# The replies that pass the filter of `parse_reply`

The checks of `parse_reply` on the time are refusals: not positive, too far away. Every
comparison with `nan` is false, so neither of them refuses it. A reply that is accepted carries a
plausible number, or it is one that says `nan` (`parseReply_plausible_iff`).
-/

set_option autoImplicit false

namespace Peers

open Text

/-- A reply of two words that fits into a message. -/
def TwoWords (raw : Bytes) (peerName stamp : List Char) : Prop :=
  raw.length ≤ maxMessageBytes ∧
    ∃ decoded, Utf8.decode raw = some decoded ∧ split decoded = [peerName, stamp]

/-- The second word is one that `float` reads as `nan`. -/
def SaysNan (unicode : Unicode) (raw : Bytes) : Prop :=
  ∃ peerName stamp, TwoWords raw peerName stamp ∧ PyFloat.float? unicode stamp = some .nan

/-- What the node expects of a reply it uses. -/
def Plausible (ownTime : ℚ) : Except ReplyError (List Char × PyFloat) → Prop
  | .error _ => True
  | .ok (_, peerTime) => ∃ t : ℚ, peerTime = .num t ∧ 0 < t ∧ |t - ownTime| ≤ maxPlausibleSkew

/-- No reply of two words is empty. -/
theorem TwoWords.not_isEmpty {raw : Bytes} {peerName stamp : List Char}
    (h : TwoWords raw peerName stamp) : ¬ raw.isEmpty = true := by
  obtain ⟨-, decoded, hdecoded, hsplit⟩ := h
  rw [List.isEmpty_iff]
  rintro rfl
  have hnil : decoded = [] := (Option.some.inj hdecoded).symm
  rw [hnil] at hsplit
  cases hsplit

/-- **What `parse_reply` accepts**: two words, the second one a float that neither check
refuses. -/
theorem parseReply_ok_iff (unicode : Unicode) (raw : Bytes) (ownTime : ℚ)
    (peerName : List Char) (peerTime : PyFloat) :
    parseReply unicode raw ownTime = .ok (peerName, peerTime) ↔
      ∃ stamp, TwoWords raw peerName stamp ∧ PyFloat.float? unicode stamp = some peerTime ∧
        peerTime.le 0 = false ∧ (peerTime.sub ownTime).abs.gt maxPlausibleSkew = false := by
  constructor
  · intro h
    unfold parseReply at h
    by_cases hempty : raw.isEmpty = true
    · rw [if_pos hempty] at h
      cases h
    rw [if_neg hempty] at h
    by_cases hlarge : raw.length > maxMessageBytes
    · rw [if_pos hlarge] at h
      cases h
    rw [if_neg hlarge] at h
    cases hdecoded : Utf8.decode raw with
    | none => simp only [hdecoded, reduceCtorEq] at h
    | some decoded =>
        simp only [hdecoded, split_strip] at h
        split at h
        · rename_i name stamp hsplit
          cases hstamp : PyFloat.float? unicode stamp with
          | none => simp only [hstamp, reduceCtorEq] at h
          | some x =>
              simp only [hstamp] at h
              by_cases hpos : x.le 0 = true
              · rw [if_pos hpos] at h
                cases h
              rw [if_neg hpos] at h
              by_cases hfar : (x.sub ownTime).abs.gt maxPlausibleSkew = true
              · rw [if_pos hfar] at h
                cases h
              rw [if_neg hfar] at h
              cases h
              exact ⟨stamp, ⟨Nat.not_lt.mp hlarge, decoded, hdecoded, hsplit⟩, hstamp,
                Bool.not_eq_true _ ▸ hpos, Bool.not_eq_true _ ▸ hfar⟩
        · cases h
  · rintro ⟨stamp, htwo, hstamp, hpos, hfar⟩
    have hempty := htwo.not_isEmpty
    obtain ⟨hlength, decoded, hdecoded, hsplit⟩ := htwo
    unfold parseReply
    rw [if_neg hempty, if_neg (Nat.not_lt.mpr hlength)]
    simp only [hdecoded, split_strip, hsplit, hstamp, hpos, hfar, Bool.false_eq_true, if_false]

/-- Of the values of a float, the two checks let plausible numbers pass, and `nan`. -/
theorem checks_pass_iff (peerTime : PyFloat) (ownTime : ℚ) :
    (peerTime.le 0 = false ∧ (peerTime.sub ownTime).abs.gt maxPlausibleSkew = false) ↔
      peerTime = .nan ∨
        ∃ t : ℚ, peerTime = .num t ∧ 0 < t ∧ |t - ownTime| ≤ maxPlausibleSkew := by
  cases peerTime with
  | num q =>
      simp only [PyFloat.le, PyFloat.sub, PyFloat.abs, PyFloat.gt, decide_eq_false_iff_not,
        not_le, not_lt, reduceCtorEq, false_or, PyFloat.num.injEq, exists_eq_left']
  | infinity negative =>
      -- minus infinity is not positive, and infinity is too far away
      cases negative <;> simp [PyFloat.le, PyFloat.sub, PyFloat.abs, PyFloat.gt]
  | nan => simp [PyFloat.le, PyFloat.sub, PyFloat.abs, PyFloat.gt]

/-- **When the filter holds.** A reply is refused or carries a plausible number exactly when it
does not say `nan`. -/
theorem parseReply_plausible_iff (unicode : Unicode) (raw : Bytes) (ownTime : ℚ) :
    Plausible ownTime (parseReply unicode raw ownTime) ↔ ¬ SaysNan unicode raw := by
  constructor
  · rintro hplausible ⟨peerName, stamp, htwo, hstamp⟩
    have hchecks := (checks_pass_iff .nan ownTime).mpr (Or.inl rfl)
    have hok : parseReply unicode raw ownTime = .ok (peerName, .nan) :=
      (parseReply_ok_iff unicode raw ownTime peerName .nan).mpr ⟨stamp, htwo, hstamp, hchecks⟩
    rw [hok] at hplausible
    obtain ⟨t, ht, -⟩ := hplausible
    cases ht
  · intro hnan
    cases hresult : parseReply unicode raw ownTime with
    | error e => exact trivial
    | ok reply =>
        obtain ⟨peerName, peerTime⟩ := reply
        obtain ⟨stamp, htwo, hstamp, hchecks⟩ :=
          (parseReply_ok_iff unicode raw ownTime peerName peerTime).mp hresult
        rcases (checks_pass_iff peerTime ownTime).mp hchecks with rfl | hnumber
        · exact absurd ⟨peerName, stamp, htwo, hstamp⟩ hnan
        · exact hnumber

/-- The reply `A nan` is accepted, at any time of the node. -/
theorem parseReply_accepts_nan :
    parseReply .ascii (Utf8.encode "A nan".toList) 1000 = .ok (['A'], .nan) ∧
      ¬ ∀ unicode raw ownTime, Plausible ownTime (parseReply unicode raw ownTime) := by
  have hok : parseReply .ascii (Utf8.encode "A nan".toList) 1000 = .ok (['A'], .nan) := by
    apply (parseReply_ok_iff .ascii _ 1000 ['A'] .nan).mpr
    exact ⟨"nan".toList, ⟨by decide, "A nan".toList, Utf8.decode_encode _, by decide⟩, by decide,
      rfl, rfl⟩
  refine ⟨hok, fun h => ?_⟩
  have hplausible := h .ascii (Utf8.encode "A nan".toList) 1000
  rw [hok] at hplausible
  obtain ⟨t, ht, -⟩ := hplausible
  cases ht

end Peers
