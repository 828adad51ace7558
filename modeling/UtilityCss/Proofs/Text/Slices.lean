import Mathlib.Data.List.Basic
import UtilityCss.Proofs.Text.Cut

set_option autoImplicit false

namespace UtilityCss.Text

variable {before part after text marker : List Char} {css slice : String} {start stop : Nat}

def bytes (text : List Char) : Nat := (String.ofList text).utf8ByteSize

@[simp] theorem bytes_nil : bytes [] = 0 := rfl

@[simp] theorem bytes_append (text rest : List Char) :
    bytes (text ++ rest) = bytes text + bytes rest := by
  simp [bytes]

@[simp] theorem bytes_cons (c : Char) (rest : List Char) :
    bytes (c :: rest) = c.utf8Size + bytes rest := by
  rw [← List.singleton_append, bytes_append]
  simp [bytes]

theorem bytes_toList (css : String) : bytes css.toList = css.utf8ByteSize := by
  simp [bytes]

def slice? (css : String) (start stop : Nat) : Option String :=
  if within : start ≤ stop ∧ String.Pos.Raw.IsValid css ⟨start⟩ ∧
      String.Pos.Raw.IsValid css ⟨stop⟩ then
    some (String.fromUTF8 (css.toByteArray.extract start stop)
      ((String.Pos.Raw.isValidUTF8_extract_iff ⟨start⟩ ⟨stop⟩ within.1
        within.2.2.le_rawEndPos).2 (.inr within.2)))
  else none

theorem valid_of_slice? (found : slice? css start stop = some slice) :
    start ≤ stop ∧ String.Pos.Raw.IsValid css ⟨start⟩ ∧ String.Pos.Raw.IsValid css ⟨stop⟩ := by
  by_contra outside
  rw [slice?, dif_neg outside] at found
  cases found

theorem slice?_append (before slice after : String) :
    slice? (before ++ slice ++ after) before.utf8ByteSize
      (before.utf8ByteSize + slice.utf8ByteSize) = some slice := by
  have starts : String.Pos.Raw.IsValid (before ++ slice ++ after) ⟨before.utf8ByteSize⟩ :=
    String.Pos.Raw.isValid_iff_exists_append.2
      ⟨before, slice ++ after, String.append_assoc, rfl⟩
  have stops : String.Pos.Raw.IsValid (before ++ slice ++ after)
      ⟨before.utf8ByteSize + slice.utf8ByteSize⟩ :=
    String.Pos.Raw.isValid_iff_exists_append.2
      ⟨before ++ slice, after, rfl, by simp [String.rawEndPos]⟩
  rw [slice?, dif_pos ⟨Nat.le_add_right _ _, starts, stops⟩, Option.some.injEq,
    ← String.toByteArray_inj]
  calc (before ++ slice ++ after).toByteArray.extract before.utf8ByteSize
        (before.utf8ByteSize + slice.utf8ByteSize)
    _ = (slice.toByteArray ++ after.toByteArray).extract 0 slice.toByteArray.size := by
      simpa [ByteArray.append_assoc] using ByteArray.extract_append_size_add
        (a := before.toByteArray) (i := 0) (j := slice.toByteArray.size)
    _ = slice.toByteArray := ByteArray.extract_append_eq_left rfl

theorem slice?_eq_some_iff : slice? css start stop = some slice ↔
    ∃ before after, css = before ++ slice ++ after ∧ before.utf8ByteSize = start ∧
      start + slice.utf8ByteSize = stop := by
  constructor
  · intro found
    obtain ⟨inOrder, starts, stops⟩ := valid_of_slice? found
    obtain ⟨before, rest, rfl, isStart⟩ := String.Pos.Raw.isValid_iff_exists_append.1 starts
    obtain rfl : start = before.utf8ByteSize := congrArg String.Pos.Raw.byteIdx isStart
    -- What stops in the part before the start is empty.
    rcases String.Pos.Raw.isValid_append.1 stops with ends | ⟨-, ends⟩
    · obtain rfl : stop = before.utf8ByteSize := Nat.le_antisymm ends.le_utf8ByteSize inOrder
      have empty := slice?_append before "" rest
      rw [String.append_empty] at empty
      obtain rfl : "" = slice := Option.some.inj (empty.symm.trans found)
      exact ⟨before, rest, by rw [String.append_empty], rfl, rfl⟩
    · obtain ⟨part, after, rfl, isStop⟩ := String.Pos.Raw.isValid_iff_exists_append.1 ends
      have length : stop - before.utf8ByteSize = part.utf8ByteSize :=
        congrArg String.Pos.Raw.byteIdx isStop
      obtain rfl : stop = before.utf8ByteSize + part.utf8ByteSize := by omega
      rw [← String.append_assoc, slice?_append before part after] at found
      obtain rfl := Option.some.inj found
      exact ⟨before, after, String.append_assoc.symm, rfl, rfl⟩
  · rintro ⟨before, after, rfl, rfl, rfl⟩
    exact slice?_append before slice after

theorem slice?_of_toList (joined : css.toList = before ++ part ++ after) :
    slice? css (bytes before) (bytes before + bytes part) = some (String.ofList part) := by
  obtain rfl : css = String.ofList before ++ String.ofList part ++ String.ofList after := by
    rw [← String.ofList_append, ← String.ofList_append, ← joined, String.ofList_toList]
  exact slice?_append _ _ _

theorem slice?_to_end (joined : css.toList = before ++ after) :
    slice? css (bytes before) css.utf8ByteSize = some (String.ofList after) := by
  have size : css.utf8ByteSize = bytes before + bytes after := by
    rw [← bytes_toList, joined, bytes_append]
  have joined' : css.toList = before ++ after ++ [] := by rw [joined, List.append_nil]
  rw [size]
  exact slice?_of_toList joined'

def find? (marker text : List Char) : Option Nat :=
  (splitAtText marker text).map fun parts => bytes parts.1

def findChar? (c : Char) (text : List Char) : Option Nat :=
  (splitOnce c text).map fun parts => bytes parts.1

def upTo : Nat → List Char → List Char
  | _, [] => []
  | 0, _ => []
  | left + 1, c :: rest => c :: upTo (left + 1 - c.utf8Size) rest

theorem upTo_bytes (before after : List Char) : upTo (bytes before) (before ++ after) = before := by
  induction before with
  | nil => cases after <;> rfl
  | cons c before ih =>
    have positive := c.utf8Size_pos
    obtain ⟨left, isLeft⟩ : ∃ left, bytes (c :: before) = left + 1 :=
      Nat.exists_eq_add_one.2 (by rw [bytes_cons]; omega)
    have below : left + 1 - c.utf8Size = bytes before := by
      rw [← isLeft, bytes_cons]
      omega
    rw [isLeft, List.cons_append, upTo, below, ih]

end UtilityCss.Text
