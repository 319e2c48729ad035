/-! Texts as lists of characters, and their UTF-8 bytes. A text is taken apart
character by character everywhere in this library, so every rule on texts is a
recursion on a list. -/

namespace WordGrammar

abbrev Text := List Char

abbrev Bytes := List UInt8

namespace Text

def utf8 (t : Text) : Bytes :=
  t.flatMap String.utf8EncodeChar

/-- The text that has these bytes as its UTF-8 form, if there is one. A byte
order mark is a character like any other. -/
def ofUtf8? (bytes : Bytes) : Option Text :=
  (String.fromUTF8? bytes.toByteArray).map String.toList

@[simp] theorem utf8_nil : utf8 [] = [] := rfl

@[simp] theorem utf8_append (s t : Text) : utf8 (s ++ t) = utf8 s ++ utf8 t := by
  simp [utf8]

theorem utf8_flatten (ts : List Text) : utf8 ts.flatten = (ts.map utf8).flatten := by
  induction ts with
  | nil => rfl
  | cons t ts ih => simp [ih]

theorem toByteArray_utf8 (t : Text) : (utf8 t).toByteArray = (String.ofList t).toByteArray := by
  rw [String.toByteArray_ofList]
  rfl

/-- Decoding accepts exactly the bytes of a text. -/
theorem ofUtf8?_eq_some_iff {bytes : Bytes} {t : Text} :
    ofUtf8? bytes = some t ↔ bytes = utf8 t := by
  rw [ofUtf8?, String.fromUTF8?]
  constructor
  · intro h
    split at h
    · rename_i hv
      have ht : (String.fromUTF8 bytes.toByteArray hv).toList = t := by simpa using h
      have hb : (String.fromUTF8 bytes.toByteArray hv).toByteArray = bytes.toByteArray := rfl
      have hu := toByteArray_utf8 t
      rw [← ht, String.ofList_toList, hb] at hu
      have hd := congrArg (fun b : ByteArray => b.data.toList) hu
      simpa [ht] using hd.symm
    · simp at h
  · rintro rfl
    have hv : (utf8 t).toByteArray.IsValidUTF8 := by
      rw [toByteArray_utf8]
      exact (String.ofList t).isValidUTF8
    have hs : String.fromUTF8 (utf8 t).toByteArray hv = String.ofList t :=
      String.toByteArray_inj.mp (toByteArray_utf8 t)
    rw [dif_pos hv, hs]
    simp

end Text

end WordGrammar
