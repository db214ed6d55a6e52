import Mathlib.Data.List.Basic
import Mathlib.Data.Nat.Notation

/-!
# UTF-8

Texts are lists of Unicode characters, and `encode` and `decode` translate them into bytes and
back. The encoding of a character is never the beginning of the encoding of another one, so one
encoded text is a prefix of another exactly when the texts are (`encode_prefix_iff`).
-/

set_option autoImplicit false

namespace Utf8

def encode (text : List Char) : List UInt8 := text.flatMap String.utf8EncodeChar

/-- The text that the bytes encode; there is none when they are not UTF-8. -/
def decode (bytes : List UInt8) : Option (List Char) :=
  bytes.toByteArray.utf8Decode?.map Array.toList

@[simp] theorem encode_nil : encode [] = [] := rfl

theorem encode_cons (c : Char) (text : List Char) :
    encode (c :: text) = String.utf8EncodeChar c ++ encode text := rfl

theorem encode_append (s t : List Char) : encode (s ++ t) = encode s ++ encode t :=
  List.flatMap_append

@[simp] theorem decode_encode (text : List Char) : decode (encode text) = some text := by
  have h : (encode text).toByteArray = text.utf8Encode := rfl
  rw [decode, h, List.utf8Decode?_utf8Encode]
  rfl

theorem encode_eq_nil_iff {text : List Char} : encode text = [] ↔ text = [] := by
  constructor
  · intro h
    have hd := decode_encode text
    rw [h] at hd
    exact Option.some.inj (hd.symm.trans (decode_encode []))
  · rintro rfl
    rfl

/-- A character takes at most four bytes. -/
theorem length_encode_le (text : List Char) : (encode text).length ≤ 4 * text.length := by
  induction text with
  | nil => simp
  | cons c text ih =>
      have hc := c.utf8Size_le_four
      rw [encode_cons, List.length_append, String.length_utf8EncodeChar, List.length_cons]
      omega

/-- An ASCII character takes one byte. -/
theorem encode_ascii {text : List Char} (h : ∀ c ∈ text, c.toNat < 128) :
    encode text = text.map fun c => c.val.toUInt8 := by
  induction text with
  | nil => rfl
  | cons c text ih =>
      have hc : c.utf8Size = 1 := by
        have hlt : c.toNat < 128 := h c List.mem_cons_self
        have hle : c.val ≤ 0x7f := UInt32.le_iff_toNat_le.mpr (Nat.le_of_lt_succ hlt)
        unfold Char.utf8Size
        exact if_pos hle
      rw [encode_cons, String.utf8EncodeChar_eq_singleton hc,
        ih fun d hd => h d (List.mem_cons_of_mem c hd)]
      rfl

theorem length_encode_ascii {text : List Char} (h : ∀ c ∈ text, c.toNat < 128) :
    (encode text).length = text.length := by
  rw [encode_ascii h, List.length_map]

/-- Bytes cut off an ASCII text are characters cut off. -/
theorem take_encode_ascii {text : List Char} (h : ∀ c ∈ text, c.toNat < 128) (n : ℕ) :
    (encode text).take n = encode (text.take n) := by
  rw [encode_ascii h, encode_ascii fun c hc => h c (List.mem_of_mem_take hc), List.map_take]

/-- Bytes of ASCII are an ASCII text. -/
theorem exists_encode_ascii {bytes : List UInt8} (h : ∀ b ∈ bytes, b.toNat < 128) :
    ∃ text : List Char, (∀ c ∈ text, c.toNat < 128) ∧ encode text = bytes := by
  have hof : ∀ b ∈ bytes, (Char.ofNat b.toNat).toNat = b.toNat := by
    intro b hb
    have hvalid : b.toNat.isValidChar := Or.inl (by have := h b hb; omega)
    rw [Char.ofNat, dif_pos hvalid]
    rfl
  have htext : ∀ c ∈ bytes.map fun b => Char.ofNat b.toNat, c.toNat < 128 := by
    intro c hc
    obtain ⟨b, hb, rfl⟩ := List.mem_map.mp hc
    rw [hof b hb]
    exact h b hb
  refine ⟨_, htext, ?_⟩
  rw [encode_ascii htext, List.map_map]
  refine (List.map_congr_left fun b hb => ?_).trans (List.map_id bytes)
  apply UInt8.toNat_inj.mp
  have hval : (Char.ofNat b.toNat).val.toNat = b.toNat := hof b hb
  have hlt := h b hb
  show (Char.ofNat b.toNat).val.toUInt8.toNat = b.toNat
  rw [UInt32.toNat_toUInt8, hval]
  omega

/-- The first character of an encoded text can be read off its bytes. -/
theorem head_unique {c d : Char} {s t : List UInt8}
    (h : String.utf8EncodeChar c ++ s = String.utf8EncodeChar d ++ t) : c = d := by
  have hc : ((String.utf8EncodeChar c).toByteArray ++ s.toByteArray).utf8DecodeChar? 0 = some c :=
    ByteArray.utf8DecodeChar?_utf8EncodeChar_append
  have hd : ((String.utf8EncodeChar d).toByteArray ++ t.toByteArray).utf8DecodeChar? 0 = some d :=
    ByteArray.utf8DecodeChar?_utf8EncodeChar_append
  rw [← List.toByteArray_append] at hc hd
  rw [h] at hc
  exact Option.some.inj (hc.symm.trans hd)

theorem encode_prefix_iff {s t : List Char} : encode s <+: encode t ↔ s <+: t := by
  constructor
  · intro h
    induction s generalizing t with
    | nil => exact List.nil_prefix
    | cons c s ih =>
        obtain ⟨rest, hrest⟩ := h
        cases t with
        | nil =>
            rw [encode_nil, List.append_eq_nil_iff, encode_eq_nil_iff] at hrest
            cases hrest.1
        | cons d t =>
            rw [encode_cons, encode_cons, List.append_assoc] at hrest
            obtain rfl := head_unique hrest
            have htail : encode s <+: encode t := ⟨rest, List.append_cancel_left hrest⟩
            exact List.cons_prefix_cons.mpr ⟨rfl, ih htail⟩
  · rintro ⟨rest, rfl⟩
    rw [encode_append]
    exact List.prefix_append _ _

/-! ## Decoding -/

theorem decode_eq_some_iff {bytes : List UInt8} {text : List Char} :
    decode bytes = some text ↔ encode text = bytes := by
  constructor
  · intro h
    obtain ⟨chars, hchars, rfl⟩ := Option.map_eq_some_iff.mp h
    have hsome : bytes.toByteArray.utf8Decode?.isSome = true := by rw [hchars]; rfl
    have hget : bytes.toByteArray.utf8Decode?.get hsome = chars := by
      simp only [hchars, Option.get_some]
    have hencode : chars.toList.utf8Encode = bytes.toByteArray := by
      rw [← hget]
      exact ByteArray.utf8Encode_get_utf8Decode?
    exact List.toByteArray_inj.mp hencode
  · rintro rfl
    exact decode_encode text

theorem encode_injective {s t : List Char} (h : encode s = encode t) : s = t := by
  have hs := decode_encode s
  rw [h, decode_encode] at hs
  exact (Option.some.inj hs).symm

theorem encode_flatten (pieces : List (List Char)) :
    encode pieces.flatten = (pieces.map encode).flatten := by
  induction pieces with
  | nil => rfl
  | cons s pieces ih => rw [List.flatten_cons, encode_append, ih, List.map_cons, List.flatten_cons]

/-! ## Chunks of an encoded text -/

/-- Every cut between two chunks falls between two characters. -/
def Uncut (text : List Char) (chunks : List (List UInt8)) : Prop :=
  ∀ k, ∃ s, s <+: text ∧ (encode s).length = (chunks.take k).flatten.length

/-- The first chunk is a piece of the text, and the other ones cut the rest. -/
theorem Uncut.cons {text : List Char} {chunk : List UInt8} {chunks : List (List UInt8)}
    (hchunks : chunk ++ chunks.flatten = encode text) (h : Uncut text (chunk :: chunks)) :
    ∃ s t, text = s ++ t ∧ chunk = encode s ∧ chunks.flatten = encode t ∧ Uncut t chunks := by
  obtain ⟨s, ⟨t, rfl⟩, hlength⟩ := h 1
  rw [List.take_succ_cons, List.take_zero, List.flatten_singleton] at hlength
  rw [encode_append] at hchunks
  obtain ⟨hchunk, hrest⟩ := List.append_inj hchunks hlength.symm
  refine ⟨s, t, rfl, hchunk, hrest, fun k => ?_⟩
  obtain ⟨u, hu, hlength⟩ := h (k + 1)
  rw [List.take_succ_cons, List.flatten_cons, List.length_append, hchunk] at hlength
  rcases List.prefix_or_prefix_of_prefix hu (List.prefix_append s t) with hus | ⟨v, rfl⟩
  · -- `u` is no longer than the first piece, so the chunks after it are empty so far
    have hle := (encode_prefix_iff.mpr hus).length_le
    refine ⟨[], List.nil_prefix, ?_⟩
    rw [encode_nil, List.length_nil]
    omega
  · refine ⟨v, (List.prefix_append_right_inj s).mp hu, ?_⟩
    rw [encode_append, List.length_append] at hlength
    omega

theorem uncut_iff_pieces {text : List Char} {chunks : List (List UInt8)}
    (hchunks : chunks.flatten = encode text) :
    Uncut text chunks ↔ ∃ pieces : List (List Char), chunks = pieces.map encode := by
  constructor
  · intro h
    induction chunks generalizing text with
    | nil => exact ⟨[], rfl⟩
    | cons chunk chunks ih =>
        obtain ⟨s, t, -, rfl, hrest, ht⟩ := h.cons hchunks
        obtain ⟨pieces, rfl⟩ := ih hrest ht
        exact ⟨s :: pieces, rfl⟩
  · rintro ⟨pieces, rfl⟩ k
    rw [← encode_flatten] at hchunks
    have hsplit := congrArg List.flatten (List.take_append_drop k pieces)
    rw [List.flatten_append] at hsplit
    refine ⟨(pieces.take k).flatten, ⟨(pieces.drop k).flatten, ?_⟩, ?_⟩
    · exact hsplit.trans (encode_injective hchunks)
    · rw [encode_flatten, List.map_take]

/-- **The chunks of an encoded text all decode exactly when no cut falls inside a character.** -/
theorem uncut_iff_decode {text : List Char} {chunks : List (List UInt8)}
    (hchunks : chunks.flatten = encode text) :
    Uncut text chunks ↔ ∀ chunk ∈ chunks, ∃ s, decode chunk = some s := by
  rw [uncut_iff_pieces hchunks]
  constructor
  · rintro ⟨pieces, rfl⟩ chunk hchunk
    obtain ⟨s, -, rfl⟩ := List.mem_map.mp hchunk
    exact ⟨s, decode_encode s⟩
  · intro h
    clear hchunks
    induction chunks with
    | nil => exact ⟨[], rfl⟩
    | cons chunk chunks ih =>
        obtain ⟨s, hs⟩ := h chunk List.mem_cons_self
        obtain ⟨pieces, rfl⟩ := ih fun c hc => h c (List.mem_cons_of_mem chunk hc)
        exact ⟨s :: pieces, by rw [List.map_cons, decode_eq_some_iff.mp hs]⟩

end Utf8
