import ScriptMinifier.Text

/-!
# Cutting UTF-8

Bytes that are UTF-8 can be cut in front of every byte that starts a character, and both parts are
UTF-8 again (`isSome_ofUtf8?_append_cons_iff`).  An ASCII byte is a character of its own, so the cut
can be made on either side of it (`isSome_ofUtf8?_ascii_iff`).
-/

namespace ScriptMinifier

theorem isSome_ofUtf8?_iff {bytes : Bytes} :
    (ofUtf8? bytes).isSome = true ↔ (ByteArray.mk bytes.toArray).IsValidUTF8 := by
  rw [ofUtf8?, String.fromUTF8?]
  split
  next h => simp [h]
  next h => simp [h]

/-- **Bytes come back from their text.** -/
theorem utf8_of_ofUtf8? {bytes : Bytes} {text : String} (h : ofUtf8? bytes = some text) :
    utf8 text = bytes := by
  rw [ofUtf8?, String.fromUTF8?] at h
  split at h
  next hvalid =>
    obtain rfl := Option.some.inj h
    rfl
  next => cases h

theorem isSome_ofUtf8?_nil : (ofUtf8? []).isSome = true :=
  isSome_ofUtf8?_iff.mpr ByteArray.isValidUTF8_empty

theorem isSome_ofUtf8?_append {xs ys : Bytes} (hxs : (ofUtf8? xs).isSome = true)
    (hys : (ofUtf8? ys).isSome = true) : (ofUtf8? (xs ++ ys)).isSome = true := by
  rw [isSome_ofUtf8?_iff] at hxs hys ⊢
  have happend : ByteArray.mk (xs ++ ys).toArray
      = ByteArray.mk xs.toArray ++ ByteArray.mk ys.toArray := by
    ext1
    simp
  rw [happend]
  exact hxs.append hys

/-- **A text can be cut in front of a byte that starts a character.** -/
theorem isSome_ofUtf8?_append_cons_iff {xs ys : Bytes} {b : Byte} (hb : b.IsUTF8FirstByte) :
    (ofUtf8? (xs ++ b :: ys)).isSome = true ↔
      (ofUtf8? xs).isSome = true ∧ (ofUtf8? (b :: ys)).isSome = true := by
  refine ⟨fun h => ?_, fun h => isSome_ofUtf8?_append h.1 h.2⟩
  rw [isSome_ofUtf8?_iff] at h
  let s := String.fromUTF8 (ByteArray.mk (xs ++ b :: ys).toArray) h
  have hbytes : s.toByteArray = ByteArray.mk (xs ++ b :: ys).toArray := rfl
  have hsize : s.utf8ByteSize = xs.length + (ys.length + 1) := by
    rw [← String.size_toByteArray]
    simp [hbytes, ByteArray.size]
  have hlt : (⟨xs.length⟩ : String.Pos.Raw) < s.rawEndPos := by
    rw [String.Pos.Raw.lt_iff, String.rawEndPos, hsize]
    simp
  have hbyte : s.getUTF8Byte ⟨xs.length⟩ hlt = b := by
    simp [String.getUTF8Byte, hbytes, ByteArray.getElem_eq_getElem_data]
  have hvalid : String.Pos.Raw.IsValid s ⟨xs.length⟩ :=
    String.Pos.Raw.isValid_iff_isUTF8FirstByte.mpr (.inr ⟨hlt, hbyte ▸ hb⟩)
  have hfront : s.toByteArray.extract 0 xs.length = ByteArray.mk xs.toArray := by
    ext1
    simp [hbytes]
  have hback : s.toByteArray.extract xs.length s.utf8ByteSize = ByteArray.mk (b :: ys).toArray := by
    ext1
    simp [hbytes, hsize]
  rw [isSome_ofUtf8?_iff, isSome_ofUtf8?_iff, ← hfront, ← hback]
  exact ⟨hvalid.isValidUTF8_extract_zero, hvalid.isValidUTF8_extract_utf8ByteSize⟩

theorem utf8EncodeChar_ofUInt8 {b : Byte} (hb : b < 0x80) :
    String.utf8EncodeChar (Char.ofUInt8 b) = [b] := by
  have hval : (Char.ofUInt8 b).val = b.toUInt32 := rfl
  have hsize : (Char.ofUInt8 b).utf8Size = 1 := by
    rw [Char.utf8Size_eq_one_iff, hval, UInt32.le_iff_toNat_le, UInt8.toNat_toUInt32]
    exact Nat.le_of_lt_succ (UInt8.lt_iff_toNat_lt.mp hb)
  rw [String.utf8EncodeChar_eq_singleton hsize, hval, UInt8.toUInt8_toUInt32]

/-- **A text can be cut on both sides of an ASCII byte.** -/
theorem isSome_ofUtf8?_ascii_iff {xs ys : Bytes} {b : Byte} (hb : b < 0x80) :
    (ofUtf8? (xs ++ b :: ys)).isSome = true ↔
      (ofUtf8? xs).isSome = true ∧ (ofUtf8? ys).isSome = true := by
  have hchar := utf8EncodeChar_ofUInt8 hb
  have hfirst : b.IsUTF8FirstByte := by
    have h := @UInt8.isUTF8FirstByte_getElem_zero_utf8EncodeChar (Char.ofUInt8 b)
    simpa only [hchar, List.getElem_cons_zero] using h
  have hcons : ByteArray.mk (b :: ys).toArray
      = [Char.ofUInt8 b].utf8Encode ++ ByteArray.mk ys.toArray := by
    rw [List.utf8Encode_singleton, hchar]
    ext1
    simp
  rw [isSome_ofUtf8?_append_cons_iff hfirst, @isSome_ofUtf8?_iff (b :: ys), hcons,
    ByteArray.isValidUTF8_utf8Encode_singleton_append_iff, ← isSome_ofUtf8?_iff]

theorem isSome_ofUtf8?_ascii_cons_iff {ys : Bytes} {b : Byte} (hb : b < 0x80) :
    (ofUtf8? (b :: ys)).isSome = true ↔ (ofUtf8? ys).isSome = true := by
  rw [← List.nil_append (b :: ys), isSome_ofUtf8?_ascii_iff hb]
  exact and_iff_right isSome_ofUtf8?_nil

end ScriptMinifier
