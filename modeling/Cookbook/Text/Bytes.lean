/-!
# Byte offsets

Offsets into a text count the bytes of its UTF-8 form. A text is cut at an offset with `takeBytes`
and `dropBytes`; the cut loses nothing when the offset is a boundary between characters
(`take_append_drop_of_boundary`).
-/

namespace Cookbook.Text

/-- The number of bytes of a text in UTF-8. -/
def byteSize : List Char → Nat
  | [] => 0
  | c :: rest => c.utf8Size + byteSize rest

/-- The longest initial part of a text with at most `n` bytes. -/
def takeBytes : Nat → List Char → List Char
  | _, [] => []
  | n, c :: rest => if c.utf8Size ≤ n then c :: takeBytes (n - c.utf8Size) rest else []

/-- What follows `takeBytes n`. -/
def dropBytes : Nat → List Char → List Char
  | _, [] => []
  | n, c :: rest => if c.utf8Size ≤ n then dropBytes (n - c.utf8Size) rest else c :: rest

/-- The text between two byte offsets. -/
def sliceBytes (start stop : Nat) (text : List Char) : List Char :=
  takeBytes (stop - start) (dropBytes start text)

/-- The offset at which `rest` stands in a text that ends in it. -/
def offsetOf (text rest : List Char) : Nat :=
  byteSize text - byteSize rest

/-- An offset that separates two characters of the text, or stands at one of its ends. -/
def IsBoundary (text : List Char) (offset : Nat) : Prop :=
  ∃ front back, text = front ++ back ∧ byteSize front = offset

/-! ## Laws -/

@[simp] theorem byteSize_nil : byteSize [] = 0 := rfl

@[simp] theorem byteSize_cons (c : Char) (rest : List Char) :
    byteSize (c :: rest) = c.utf8Size + byteSize rest := rfl

@[simp] theorem byteSize_append (front back : List Char) :
    byteSize (front ++ back) = byteSize front + byteSize back := by
  induction front with
  | nil => simp
  | cons c front ih => simp [ih, Nat.add_assoc]

/-- The size of a text agrees with the size of the string that it makes up. -/
theorem byteSize_toList (s : String) : byteSize s.toList = s.utf8ByteSize := by
  rw [← String.ofList_toList (s := s)]
  generalize s.toList = l
  rw [String.toList_ofList]
  induction l with
  | nil => rfl
  | cons c rest ih =>
    rw [byteSize_cons, ih, String.ofList_cons]
    simp

/-- The offset of a suffix is the size of what stands before it. -/
@[simp] theorem offsetOf_append (front back : List Char) :
    offsetOf (front ++ back) back = byteSize front := by
  simp [offsetOf]

/-- Cutting at any offset loses nothing. -/
theorem takeBytes_append_dropBytes (n : Nat) (text : List Char) :
    takeBytes n text ++ dropBytes n text = text := by
  induction text generalizing n with
  | nil => simp [takeBytes, dropBytes]
  | cons c rest ih =>
    by_cases h : c.utf8Size ≤ n <;> simp [takeBytes, dropBytes, h, ih]

theorem takeBytes_byteSize_append (front back : List Char) :
    takeBytes (byteSize front) (front ++ back) = front := by
  induction front with
  | nil =>
    cases back with
    | nil => rfl
    | cons c back =>
      have := Char.utf8Size_pos c
      simp [takeBytes]; omega
  | cons c front ih => simp [takeBytes, ih]

/-- A cut at the size of an initial part leaves what follows it. -/
theorem dropBytes_byteSize_append (front back : List Char) :
    dropBytes (byteSize front) (front ++ back) = back := by
  have h := takeBytes_append_dropBytes (byteSize front) (front ++ back)
  rw [takeBytes_byteSize_append] at h
  exact List.append_cancel_left h

/-- A slice of a text between the sizes of two of its initial parts. -/
theorem sliceBytes_append (front text rest : List Char) :
    sliceBytes (byteSize front) (byteSize front + byteSize text) (front ++ text ++ rest) = text := by
  rw [sliceBytes, Nat.add_sub_cancel_left, List.append_assoc, dropBytes_byteSize_append,
    takeBytes_byteSize_append]

/-- At a boundary the first part has exactly as many bytes as the offset says. -/
theorem take_append_drop_of_boundary {text : List Char} {offset : Nat}
    (h : IsBoundary text offset) :
    takeBytes offset text ++ dropBytes offset text = text ∧
      byteSize (takeBytes offset text) = offset := by
  obtain ⟨front, back, rfl, rfl⟩ := h
  exact ⟨takeBytes_append_dropBytes _ _, by rw [takeBytes_byteSize_append]⟩

end Cookbook.Text
