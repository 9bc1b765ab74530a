import Mathlib.Data.List.TakeWhile
import TreeWalk.Proofs.Indexed.ByteScan

/-! Characters and their bytes. The bytes below 128 are the characters below 128, and no other
character has one of them, so passing over bytes of a class is passing over the characters of a
class, and texts are cut where characters start. -/

namespace TreeWalk

namespace Source

/-- The bytes of a text in UTF-8. -/
def encode (cs : List Char) : List UInt8 :=
  cs.flatMap String.utf8EncodeChar

section Encode

variable {c d : Char} {b : UInt8}

@[simp]
theorem encode_nil : encode [] = [] :=
  rfl

theorem encode_cons (c : Char) (cs : List Char) :
    encode (c :: cs) = String.utf8EncodeChar c ++ encode cs :=
  List.flatMap_cons

@[simp]
theorem encode_append (cs ds : List Char) : encode (cs ++ ds) = encode cs ++ encode ds :=
  List.flatMap_append

theorem toByteArray_encode (cs : List Char) :
    (encode cs).toByteArray = (String.ofList cs).toByteArray :=
  String.toByteArray_ofList.symm

theorem bytes_eq_encode (source : String) : bytes source = encode source.toList := by
  have harray : source.toUTF8 = (encode source.toList).toByteArray := by
    rw [toByteArray_encode, String.ofList_toList, String.toUTF8_eq_toByteArray]
  rw [bytes, harray, List.toList_data_toByteArray]

theorem utf8EncodeChar_narrow (h : c.toNat < 128) : String.utf8EncodeChar c = [c.toUInt8] := by
  have hle : c.val.toNat ≤ 0x7f := Nat.le_of_lt_succ h
  unfold String.utf8EncodeChar
  rw [if_pos hle]
  rfl

theorem encode_cons_narrow (h : c.toNat < 128) (cs : List Char) :
    encode (c :: cs) = c.toUInt8 :: encode cs := by
  rw [encode_cons, utf8EncodeChar_narrow h, List.singleton_append]

/-- Other characters have no bytes of the first 128. -/
theorem le_of_mem_utf8EncodeChar (h : 128 ≤ c.toNat) (hb : b ∈ String.utf8EncodeChar c) :
    128 ≤ b.toNat := by
  have hle : ¬ c.val.toNat ≤ 0x7f := Nat.not_le.mpr h
  unfold String.utf8EncodeChar at hb
  dsimp only at hb
  rw [if_neg hle] at hb
  split at hb
  · simp only [List.mem_cons, List.not_mem_nil, or_false] at hb
    rcases hb with rfl | rfl <;> rw [UInt8.toNat_ofNat'] <;> omega
  · split at hb
    · simp only [List.mem_cons, List.not_mem_nil, or_false] at hb
      rcases hb with rfl | rfl | rfl <;> rw [UInt8.toNat_ofNat'] <;> omega
    · simp only [List.mem_cons, List.not_mem_nil, or_false] at hb
      rcases hb with rfl | rfl | rfl | rfl <;> rw [UInt8.toNat_ofNat'] <;> omega

theorem exists_encode_cons (c : Char) (cs : List Char) :
    ∃ b ∈ String.utf8EncodeChar c, ∃ bs, encode (c :: cs) = b :: bs := by
  obtain ⟨b, bs, hbytes⟩ := List.exists_cons_of_ne_nil (String.utf8EncodeChar_ne_nil (c := c))
  refine ⟨b, ?_, bs ++ encode cs, ?_⟩
  · rw [hbytes]
    exact List.mem_cons_self
  · rw [encode_cons, hbytes, List.cons_append]

theorem length_le_encode (cs : List Char) : cs.length ≤ (encode cs).length := by
  induction cs with
  | nil => exact Nat.le_refl 0
  | cons c cs ih =>
    have hpositive : 0 < (String.utf8EncodeChar c).length :=
      List.length_pos_iff.mpr String.utf8EncodeChar_ne_nil
    rw [encode_cons, List.length_append, List.length_cons]
    omega

theorem toNat_toUInt8 (h : c.toNat < 128) : c.toUInt8.toNat = c.toNat := by
  have hmod : c.toUInt8.toNat = c.toNat % 256 := rfl
  omega

theorem toUInt8_inj (hc : c.toNat < 128) (hd : d.toNat < 128) : c.toUInt8 = d.toUInt8 ↔ c = d := by
  rw [← UInt8.toNat_inj, toNat_toUInt8 hc, toNat_toUInt8 hd, Char.toNat_inj]

end Encode

section Classes

variable {class_ : Char → Bool} {byteClass : UInt8 → Bool}

/-- A class of bytes that tells the characters of a class from others. Bytes of wide characters are
all alike to it. -/
structure Reads (class_ : Char → Bool) (byteClass : UInt8 → Bool) : Prop where
  narrow : ∀ {c : Char}, c.toNat < 128 → byteClass c.toUInt8 = class_ c
  wide : ∀ {c : Char} {b : UInt8}, 128 ≤ c.toNat → 128 ≤ b.toNat → byteClass b = class_ c

theorem Reads.of_mem (h : Reads class_ byteClass) {c : Char} {b : UInt8}
    (hb : b ∈ String.utf8EncodeChar c) : byteClass b = class_ c := by
  rcases Nat.lt_or_ge c.toNat 128 with hc | hc
  · rw [utf8EncodeChar_narrow hc] at hb
    rw [List.mem_singleton.mp hb]
    exact h.narrow hc
  · exact h.wide hc (le_of_mem_utf8EncodeChar hc hb)

theorem Reads.takeWhile_encode (h : Reads class_ byteClass) (cs : List Char) :
    (encode cs).takeWhile byteClass = encode (cs.takeWhile class_) := by
  induction cs with
  | nil => rfl
  | cons c cs ih =>
    cases hc : class_ c with
    | true =>
      have hbytes : ∀ b ∈ String.utf8EncodeChar c, byteClass b = true := by
        intro b hb
        rw [h.of_mem hb, hc]
      rw [encode_cons, List.takeWhile_append_of_pos hbytes, ih, List.takeWhile_cons_of_pos hc,
        encode_cons]
    | false =>
      obtain ⟨b, hmem, bs, hbytes⟩ := exists_encode_cons c cs
      have hb : ¬ byteClass b = true := by
        rw [h.of_mem hmem, hc]
        exact Bool.false_ne_true
      rw [hbytes, List.takeWhile_cons_of_neg hb,
        List.takeWhile_cons_of_neg (by rw [hc]; exact Bool.false_ne_true), encode_nil]

/-- What the first byte tells of the first character. -/
theorem Reads.headD_encode (h : Reads class_ byteClass) (hzero : byteClass 0 = false)
    (cs : List Char) : byteClass ((encode cs).headD 0) = cs.head?.any class_ := by
  cases cs with
  | nil => exact hzero
  | cons c cs =>
    obtain ⟨b, hmem, bs, hbytes⟩ := exists_encode_cons c cs
    rw [hbytes, List.headD_cons, List.head?_cons, Option.any_some]
    exact h.of_mem hmem

/-- The characters of a class are narrow unless it has all wide ones. -/
theorem Reads.narrow_of (h : Reads class_ byteClass) (hwide : byteClass 255 = false) {c : Char}
    (hc : class_ c = true) : c.toNat < 128 := by
  rcases Nat.lt_or_ge c.toNat 128 with hlt | hge
  · exact hlt
  · rw [← h.wide (b := 255) hge (by decide), hwide] at hc
    cases hc

theorem Reads.congr {class₂ : Char → Bool} {byteClass₂ : UInt8 → Bool}
    (h : Reads class_ byteClass) (hchars : ∀ c, class₂ c = class_ c)
    (hbytes : ∀ b, byteClass₂ b = byteClass b) : Reads class₂ byteClass₂ where
  narrow hc := by rw [hchars, hbytes, h.narrow hc]
  wide hc hb := by rw [hchars, hbytes, h.wide hc hb]

/-- A narrow character is told from all others by its byte. -/
theorem reads_eq {d : Char} (hd : d.toNat < 128) :
    Reads (fun c => decide (c = d)) (fun b => decide (b = d.toUInt8)) where
  narrow hc := decide_eq_decide.mpr (toUInt8_inj hc hd)
  wide {c b} hc hb := by
    have hbyte : b ≠ d.toUInt8 := by
      rintro rfl
      rw [toNat_toUInt8 hd] at hb
      omega
    have hchar : c ≠ d := by
      rintro rfl
      omega
    rw [decide_eq_false hbyte, decide_eq_false hchar]

theorem reads_ne {d : Char} (hd : d.toNat < 128) :
    Reads (fun c => decide (c ≠ d)) (fun b => decide (b ≠ d.toUInt8)) where
  narrow hc := by
    simpa only [decide_not] using congrArg not ((reads_eq hd).narrow hc)
  wide hc hb := by
    simpa only [decide_not] using congrArg not ((reads_eq hd).wide hc hb)

theorem Reads.or {class₁ class₂ : Char → Bool} {byteClass₁ byteClass₂ : UInt8 → Bool}
    (h₁ : Reads class₁ byteClass₁) (h₂ : Reads class₂ byteClass₂) :
    Reads (fun c => class₁ c || class₂ c) (fun b => byteClass₁ b || byteClass₂ b) where
  narrow hc := by rw [h₁.narrow hc, h₂.narrow hc]
  wide hc hb := by rw [h₁.wide hc hb, h₂.wide hc hb]

/-- The bytes between two narrow characters are those of the characters between them. -/
theorem reads_between {d e : Char} (he : e.toNat < 128) (hd : d.toNat < 128) :
    Reads (fun c => decide (d ≤ c) && decide (c ≤ e))
      (fun b => decide (d.toUInt8 ≤ b) && decide (b ≤ e.toUInt8)) where
  narrow {c} hc := by
    simp only [UInt8.le_iff_toNat_le, toNat_toUInt8 hc, toNat_toUInt8 hd, toNat_toUInt8 he]
    rfl
  wide {c b} hc hb := by
    have hbyte : ¬ b ≤ e.toUInt8 := by
      rw [UInt8.le_iff_toNat_le, toNat_toUInt8 he]
      omega
    have hchar : ¬ c ≤ e := by
      intro hle
      have hnat : c.toNat ≤ e.toNat := hle
      omega
    rw [decide_eq_false hbyte, decide_eq_false hchar, Bool.and_false, Bool.and_false]

theorem count_encode {d : Char} (hd : d.toNat < 128) (cs : List Char) :
    (encode cs).count d.toUInt8 = cs.count d := by
  induction cs with
  | nil => rfl
  | cons c cs ih =>
    rw [encode_cons, List.count_append, ih, List.count_cons, Nat.add_comm]
    congr 1
    rcases Nat.lt_or_ge c.toNat 128 with hc | hc
    · rw [utf8EncodeChar_narrow hc, List.count_singleton]
      simp only [beq_iff_eq, toUInt8_inj hc hd]
    · have hchar : c ≠ d := by
        rintro rfl
        omega
      rw [if_neg (by simpa using hchar), List.count_eq_zero]
      intro hmem
      have hwide := le_of_mem_utf8EncodeChar hc hmem
      rw [toNat_toUInt8 hd] at hwide
      omega

end Classes

section Slices

variable {source : String} {before text after : List Char}

theorem length_encode (cs : List Char) : (encode cs).length = (String.ofList cs).utf8ByteSize := by
  rw [← String.size_toByteArray, ← toByteArray_encode, List.size_toByteArray]

theorem isValid_encode (h : source.toList = before ++ after) :
    (String.Pos.Raw.mk (encode before).length).IsValid source := by
  apply String.Pos.Raw.isValid_iff_exists_append.mpr
  refine ⟨String.ofList before, String.ofList after, ?_, ?_⟩
  · rw [← String.ofList_append, ← h, String.ofList_toList]
  · rw [length_encode]
    rfl

/-- What is cut out between the ends of two beginnings of a source. -/
theorem slice?_encode (h : source.toList = before ++ text ++ after) :
    slice? source (encode before).length (encode (before ++ text)).length =
      some (String.ofList text) := by
  have hle : (encode before).length ≤ (encode (before ++ text)).length := by
    rw [encode_append, List.length_append]
    exact Nat.le_add_right _ _
  have hstart := isValid_encode (h.trans (List.append_assoc _ _ _))
  rw [slice?, dif_pos ⟨hle, hstart, isValid_encode h⟩]
  apply congrArg some
  apply String.toByteArray_inj.mp
  have hbytes : source.toByteArray =
      (encode before).toByteArray ++ ((encode text).toByteArray ++ (encode after).toByteArray) := by
    rw [← String.ofList_toList (s := source), h, toByteArray_encode, toByteArray_encode,
      toByteArray_encode, List.append_assoc, String.ofList_append, String.ofList_append,
      String.toByteArray_append, String.toByteArray_append]
  have hend : (encode (before ++ text)).length = (encode before).length + (encode text).length := by
    rw [encode_append, List.length_append]
  rw [String.toByteArray_extract, hbytes, ← toByteArray_encode]
  change ByteArray.extract _ ((encode before).length + 0) (encode (before ++ text)).length = _
  rw [hend, ByteArray.extract_append_size_add' (List.size_toByteArray).symm,
    ByteArray.extract_append_eq_left (List.size_toByteArray).symm]

end Slices

end Source

end TreeWalk
