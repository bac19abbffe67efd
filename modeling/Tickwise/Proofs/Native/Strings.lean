import Mathlib.Algebra.Group.Nat.Defs
import Mathlib.Data.List.TakeDrop
import Tickwise.Native.Library
import Tickwise.Proofs.Search
import Tickwise.Proofs.Storage.Text
set_option autoImplicit false

/-!
# The string functions of the library

A front and the rest make up a string, any part of it is a front of some rest, and a search finds the first part that
is what was searched for. Positions and counts are those of characters, and outside the string they are clamped to it.
-/
namespace Tickwise.Library

/-- The library has one native of a name for arguments of these types, and it answers at once when the values are these,
whatever else the call comes with. -/
def Answers (name : String) (args : List Variable) (answer : Variable) : Prop :=
  ∀ report, ∃ f, (natives report).filter (fun f => f.name = name ∧ f.params = args.map (.exact ·.ty)) = [f] ∧
    ∀ c : NativeCall, c.args.map (fun v => (v.ty, v.value)) = args.map (fun v => (v.ty, v.value)) →
      f.handler c = ⟨.done answer, c.state, c.heap, []⟩

/-- A string has another one as a part from a position on. -/
structure OccursAt (s n : String) (i : Int32) : Prop where
  start : 0 ≤ i
  within : i.toInt + (length n).toInt ≤ (length s).toInt
  part : middle s i (length n) = n

/-- The bytes of a string are found from an offset on among those of another one. -/
def BytesAt (s n : String) (offset : Nat) : Prop :=
  ∃ before after, s.toByteArray = before ++ n.toByteArray ++ after ∧ before.size = offset

section Calls

variable {c : NativeCall} {i : Nat}

theorem textArg_of_value {s : String} {ty : Ty} (h : (c.args.map fun v => (v.ty, v.value))[i]? = some (ty, .string s)) :
    textArg c i = .ok s := by
  rw [List.getElem?_map, Option.map_eq_some_iff] at h
  obtain ⟨v, arg, same⟩ := h
  obtain ⟨-, value⟩ := Prod.mk.inj same
  have crash : c.heap.crash? .string v = none := Heap.crash?_of_scalar (by rw [value]; rfl)
  unfold textArg NativeCall.arg
  rw [arg, Option.bind_some, crash, Option.map_some, Heap.toText, value]

theorem intArg_of_value {k : Int32} {ty : Ty} (h : (c.args.map fun v => (v.ty, v.value))[i]? = some (ty, .int k)) :
    intArg c i = .ok k := by
  rw [List.getElem?_map, Option.map_eq_some_iff] at h
  obtain ⟨v, arg, same⟩ := h
  obtain ⟨-, value⟩ := Prod.mk.inj same
  unfold intArg NativeCall.arg
  rw [arg, Option.map_some, Slot.toInt, value]

theorem Answers.of_immediate {name : String} {params : List ParamType} {ret : Ty} {f : NativeCall → Answer}
    {args : List Variable} {answer : Variable}
    (only : ∀ report, (natives report).filter (fun f => f.name = name ∧ f.params = args.map (.exact ·.ty)) =
      [⟨name, params, ret, immediate f⟩])
    (value : ∀ c : NativeCall, c.args.map (fun v => (v.ty, v.value)) = args.map (fun v => (v.ty, v.value)) →
      f c = .ok answer) : Answers name args answer := by
  refine fun report => ⟨_, only report, fun c same => ?_⟩
  change immediate f c = _
  unfold immediate
  rw [value c same]
  rfl

theorem answers_length (s : String) : Answers "strlen" [.ofString s] (.ofInt (length s)) := by
  refine .of_immediate (fun _ => rfl) fun c args => ?_
  have text : textArg c 0 = .ok s := textArg_of_value (by rw [args]; rfl)
  rw [text]
  rfl

theorem answers_left (s : String) (k : Int32) :
    Answers "strleft" [.ofString s, .ofInt k] (.ofString (left s k)) := by
  refine .of_immediate (fun _ => rfl) fun c args => ?_
  have text : textArg c 0 = .ok s := textArg_of_value (by rw [args]; rfl)
  have count : intArg c 1 = .ok k := intArg_of_value (by rw [args]; rfl)
  rw [text, count]
  rfl

theorem answers_right (s : String) (k : Int32) :
    Answers "strright" [.ofString s, .ofInt k] (.ofString (right s k)) := by
  refine .of_immediate (fun _ => rfl) fun c args => ?_
  have text : textArg c 0 = .ok s := textArg_of_value (by rw [args]; rfl)
  have count : intArg c 1 = .ok k := intArg_of_value (by rw [args]; rfl)
  rw [text, count]
  rfl

theorem answers_middle (s : String) (i k : Int32) :
    Answers "strmid" [.ofString s, .ofInt i, .ofInt k] (.ofString (middle s i k)) := by
  refine .of_immediate (fun _ => rfl) fun c args => ?_
  have text : textArg c 0 = .ok s := textArg_of_value (by rw [args]; rfl)
  have start : intArg c 1 = .ok i := intArg_of_value (by rw [args]; rfl)
  have count : intArg c 2 = .ok k := intArg_of_value (by rw [args]; rfl)
  rw [text, start, count]
  rfl

theorem answers_middleToEnd (s : String) (i : Int32) :
    Answers "strmid" [.ofString s, .ofInt i] (.ofString (middleToEnd s i)) := by
  refine .of_immediate (fun _ => rfl) fun c args => ?_
  have text : textArg c 0 = .ok s := textArg_of_value (by rw [args]; rfl)
  have start : intArg c 1 = .ok i := intArg_of_value (by rw [args]; rfl)
  rw [text, start]
  rfl

theorem answers_find (s n : String) : Answers "strfind" [.ofString s, .ofString n] (.ofInt (find s n)) := by
  refine .of_immediate (fun _ => rfl) fun c args => ?_
  have text : textArg c 0 = .ok s := textArg_of_value (by rw [args]; rfl)
  have needle : textArg c 1 = .ok n := textArg_of_value (by rw [args]; rfl)
  rw [text, needle]
  rfl

end Calls

section Parts

variable {s n : String} {i k : Int32}

theorem toList_slice (start count : Int) :
    (slice s start count).toList = (s.toList.drop start.toNat).take count.toNat := by
  unfold slice
  rw [String.Slice.toList_copy_take, String.toList_copy_drop]

theorem toInt_length (small : s.length < 2 ^ 31) : (length s).toInt = s.toList.length := by
  rw [String.length_toList]
  exact Int32.toInt_ofNat_of_lt small

theorem toInt_sub_length (low : 0 ≤ k) (high : k ≤ length s) :
    (length s - k).toInt = (length s).toInt - k.toInt := by
  rw [Int32.le_iff_toInt_le, Int32.toInt_zero] at low
  rw [Int32.le_iff_toInt_le] at high
  have most := (length s).toInt_lt
  rw [Int32.toInt_sub]
  exact Int.bmod_eq_of_le (by omega) (by omega)

theorem toList_left : (left s k).toList = s.toList.take k.toInt.toNat := by
  unfold left
  rw [toList_slice, Int.toNat_zero, List.drop_zero]

theorem toList_right : (right s k).toList = s.toList.drop (s.toList.length - k.toInt.toNat) := by
  unfold right
  dsimp only
  rw [toList_slice, List.take_of_length_le, String.length_toList]
  · congr 1
    omega
  · rw [List.length_drop, String.length_toList]
    omega

theorem toList_middle : (middle s i k).toList = (s.toList.drop i.toInt.toNat).take k.toInt.toNat := toList_slice _ _

theorem toList_middleToEnd (small : s.length < 2 ^ 31) : (middleToEnd s i).toList = s.toList.drop i.toInt.toNat := by
  unfold middleToEnd
  rw [toList_middle, List.take_of_length_le]
  rw [List.length_drop, String.length_toList]
  have most : Int32.maxValue.toInt.toNat = 2 ^ 31 - 1 := rfl
  omega

theorem left_of_neg (h : k < 0) : left s k = left s 0 := by
  rw [Int32.lt_iff_toInt_lt, Int32.toInt_zero] at h
  rw [← String.toList_inj, toList_left, toList_left, Int32.toInt_zero, Int.toNat_of_nonpos (Int.le_of_lt h),
    Int.toNat_zero]

theorem right_of_neg (h : k < 0) : right s k = right s 0 := by
  rw [Int32.lt_iff_toInt_lt, Int32.toInt_zero] at h
  rw [← String.toList_inj, toList_right, toList_right, Int32.toInt_zero, Int.toNat_of_nonpos (Int.le_of_lt h),
    Int.toNat_zero]

theorem left_of_length_lt (small : s.length < 2 ^ 31) (h : length s < k) : left s k = left s (length s) := by
  rw [Int32.lt_iff_toInt_lt, toInt_length small] at h
  rw [← String.toList_inj, toList_left, toList_left, toInt_length small, List.take_of_length_le (by omega),
    List.take_of_length_le (by omega)]

theorem right_of_length_lt (small : s.length < 2 ^ 31) (h : length s < k) : right s k = right s (length s) := by
  rw [Int32.lt_iff_toInt_lt, toInt_length small] at h
  rw [← String.toList_inj, toList_right, toList_right, toInt_length small]
  congr 1
  omega

variable (small : s.length < 2 ^ 31) (low : 0 ≤ k) (high : k ≤ length s)
include small low high

theorem toList_rest : (right s (length s - k)).toList = s.toList.drop k.toInt.toNat := by
  have count := toInt_sub_length low high
  rw [Int32.le_iff_toInt_le, Int32.toInt_zero] at low
  rw [Int32.le_iff_toInt_le, toInt_length small] at high
  rw [toInt_length small] at count
  rw [toList_right, count]
  congr 1
  omega

theorem left_append_right : left s k ++ right s (length s - k) = s := by
  rw [← String.toList_inj, String.toList_append, toList_left, toList_rest small low high, List.take_append_drop]

theorem length_left : length (left s k) = k := by
  rw [Int32.le_iff_toInt_le, Int32.toInt_zero] at low
  rw [Int32.le_iff_toInt_le, toInt_length small] at high
  have count : (left s k).toList.length = k.toInt.toNat := by
    rw [toList_left, List.length_take]
    omega
  have fewer : (left s k).length < 2 ^ 31 := by
    rw [← String.length_toList, count]
    have most := k.toInt_lt
    omega
  rw [← Int32.toInt_inj, toInt_length fewer, count]
  exact Int.toNat_of_nonneg low

theorem middle_eq_left_right (c : Int32) : middle s k c = left (right s (length s - k)) c := by
  rw [← String.toList_inj, toList_middle, toList_left, toList_rest small low high]

theorem middleToEnd_eq_right : middleToEnd s k = right s (length s - k) := by
  rw [← String.toList_inj, toList_middleToEnd small, toList_rest small low high]

end Parts

section Search

variable {s n : String} {i : Int32}

theorem occursAt_iff (small : s.length < 2 ^ 31) (short : n.length < 2 ^ 31) : OccursAt s n i ↔
    0 ≤ i ∧ i.toInt.toNat ≤ s.toList.length ∧ n.toList.isPrefixOf (s.toList.drop i.toInt.toNat) = true := by
  have needle := toInt_length short
  have part : middle s i (length n) = n ↔ (s.toList.drop i.toInt.toNat).take n.toList.length = n.toList := by
    rw [← String.toList_inj, toList_middle, needle, Int.toNat_natCast]
  rw [List.isPrefixOf_iff_prefix, List.prefix_iff_eq_take, eq_comm (a := n.toList), ← part]
  constructor
  · rintro ⟨low, within, part⟩
    rw [toInt_length small, needle] at within
    exact ⟨low, by omega, part⟩
  · rintro ⟨low, high, same⟩
    refine ⟨low, ?_, same⟩
    have fits := congrArg List.length (part.1 same)
    rw [List.length_take, List.length_drop] at fits
    rw [toInt_length small, needle]
    rw [Int32.le_iff_toInt_le, Int32.toInt_zero] at low
    omega

theorem find_cases (small : s.length < 2 ^ 31) (short : n.length < 2 ^ 31) :
    (find s n = -1 ∧ ∀ i, ¬ OccursAt s n i) ∨ OccursAt s n (find s n) ∧ ∀ i, OccursAt s n i → find s n ≤ i := by
  unfold find
  rw [Text.indexOf?_eq_firstIndex?]
  cases found : Text.firstIndex? n.toList s.toList with
  | none =>
    refine .inl ⟨rfl, fun i occurs => ?_⟩
    obtain ⟨-, high, front⟩ := (occursAt_iff small short).1 occurs
    have not := List.find?_range_eq_none.1 found _ (Nat.lt_succ_of_le high)
    rw [front] at not
    cases not
  | some j =>
    obtain ⟨front, mem, first⟩ := List.find?_range_eq_some.1 found
    have high : j ≤ s.toList.length := Nat.le_of_lt_succ (List.mem_range.1 mem)
    have value : (Int32.ofNat j).toInt = j := Int32.toInt_ofNat_of_lt (by rw [String.length_toList] at high; omega)
    refine .inr ⟨(occursAt_iff small short).2 ⟨?_, ?_, ?_⟩, fun i occurs => ?_⟩
    · rw [Int32.le_iff_toInt_le, value]
      exact Int.natCast_nonneg j
    · rwa [value]
    · rwa [value]
    · obtain ⟨low, -, front⟩ := (occursAt_iff small short).1 occurs
      rw [Int32.le_iff_toInt_le, Int32.toInt_zero] at low
      rw [Int32.le_iff_toInt_le, value]
      by_contra earlier
      have not := first i.toInt.toNat (by omega)
      rw [front] at not
      cases not

end Search

section Bytes

variable {s n : String} {offset : Nat}

/-- What is found starts with a first byte of a character, so what is before it are whole characters. -/
theorem isValid_of_bytesAt (some : n ≠ "") (h : BytesAt s n offset) :
    (⟨offset⟩ : String.Pos.Raw).IsValid s := by
  obtain ⟨before, after, whole, rfl⟩ := h
  have pos : 0 < n.toByteArray.size := by
    rw [String.size_toByteArray]
    exact Nat.pos_of_ne_zero fun zero => some (String.utf8ByteSize_eq_zero_iff.1 zero)
  have inside : before.size < s.toByteArray.size := by
    rw [whole, ByteArray.size_append, ByteArray.size_append]
    omega
  have first : s.toByteArray[before.size] = n.toByteArray[0] := by
    simp only [whole, ByteArray.append_assoc, ByteArray.getElem_append_right (Nat.le_refl _), Nat.sub_self]
    exact ByteArray.getElem_append_left pos
  refine String.Pos.Raw.isValid_iff_isUTF8FirstByte.2 (.inr ⟨inside, ?_⟩)
  change s.toByteArray[before.size].IsUTF8FirstByte
  rw [first]
  exact n.isValidUTF8.isUTF8FirstByte_getElem_zero pos

theorem eq_of_bytesAt (some : n ≠ "") (h : BytesAt s n offset) :
    ∃ t u, s = t ++ n ++ u ∧ t.utf8ByteSize = offset := by
  obtain ⟨cs, front⟩ := (isValid_of_bytesAt some h).isValidUTF8_extract_zero
  obtain ⟨before, after, whole, rfl⟩ := h
  rw [ByteArray.append_assoc] at whole
  rw [whole, ByteArray.extract_append_eq_left rfl] at front
  rw [front, ← String.utf8Encode_toList] at whole
  obtain ⟨rest, split⟩ := List.isPrefix_of_utf8Encode_append_eq_utf8Encode _ whole.symm
  rw [← split, List.utf8Encode_append, ByteArray.append_right_inj, ← String.utf8Encode_toList] at whole
  obtain ⟨ds, rfl⟩ := List.isPrefix_of_utf8Encode_append_eq_utf8Encode _ whole.symm
  refine ⟨.ofList cs, .ofList ds, ?_, ?_⟩
  · rw [← String.toList_inj, ← split]
    simp
  · rw [front, ← String.size_toByteArray, ← String.utf8Encode_toList, String.toList_ofList]

theorem find_bytes (s n : String) : (find s n = -1 ∧ ∀ b, ¬ BytesAt s n b) ∨ ∃ t u, s = t ++ n ++ u ∧
    (∀ b, BytesAt s n b → t.utf8ByteSize ≤ b) ∧ find s n = length t := by
  have whole {b : Nat} (h : BytesAt s n b) : ∃ t u, s = t ++ n ++ u ∧ t.utf8ByteSize ≤ b := by
    by_cases empty : n = ""
    · exact ⟨"", s, by simp [empty], Nat.zero_le b⟩
    · obtain ⟨t, u, whole, size⟩ := eq_of_bytesAt empty h
      exact ⟨t, u, whole, Nat.le_of_eq size⟩
  have starts {t u : String} (eq : s = t ++ n ++ u) :
      n.toList.isPrefixOf (s.toList.drop t.toList.length) = true := by
    rw [List.isPrefixOf_iff_prefix, eq]
    simp
  unfold find
  rw [Text.indexOf?_eq_firstIndex?]
  cases found : Text.firstIndex? n.toList s.toList with
  | none =>
    refine .inl ⟨rfl, fun b h => ?_⟩
    obtain ⟨t, u, eq, _⟩ := whole h
    have le : t.toList.length ≤ s.toList.length := by
      rw [eq]
      simp
    have not := List.find?_range_eq_none.1 found _ (Nat.lt_succ_of_le le)
    rw [starts eq] at not
    cases not
  | some k =>
    obtain ⟨front, mem, first⟩ := List.find?_range_eq_some.1 found
    have high : k ≤ s.toList.length := Nat.le_of_lt_succ (List.mem_range.1 mem)
    obtain ⟨ds, split⟩ := List.isPrefixOf_iff_prefix.1 front
    refine .inr ⟨.ofList (s.toList.take k), .ofList ds, ?_, fun b h => ?_, ?_⟩
    · rw [← String.toList_inj]
      simp [split]
    · obtain ⟨t, u, eq, size⟩ := whole h
      refine Nat.le_trans ?_ size
      have le : k ≤ t.toList.length := by
        by_contra earlier
        have not := first t.toList.length (by omega)
        rw [starts eq] at not
        cases not
      have same : t = .ofList (s.toList.take k) ++ .ofList (t.toList.drop k) := by
        rw [← String.toList_inj]
        simp [eq, List.take_append_of_le_length le]
      have parts := congrArg String.utf8ByteSize same
      rw [String.utf8ByteSize_append] at parts
      omega
    · change Int32.ofNat k = Int32.ofNat _
      rw [String.length_ofList, List.length_take, Nat.min_eq_left high]

end Bytes
/-- The string functions of the library agree with each other. -/
theorem strings_consistent {s n : String} (small : s.length < 2 ^ 31) (short : n.length < 2 ^ 31) :
    (∀ t : String, t.length < 2 ^ 31 → (length t).toInt = t.length ∧
      Answers "strlen" [.ofString t] (.ofInt (length t)) ∧
      (∀ k, Answers "strleft" [.ofString t, .ofInt k] (.ofString (left t k))) ∧
      (∀ k, Answers "strright" [.ofString t, .ofInt k] (.ofString (right t k))) ∧
      (∀ i c, Answers "strmid" [.ofString t, .ofInt i, .ofInt c] (.ofString (middle t i c))) ∧
      (∀ i, Answers "strmid" [.ofString t, .ofInt i] (.ofString (middleToEnd t i))) ∧
      ∀ u, Answers "strfind" [.ofString t, .ofString u] (.ofInt (find t u))) ∧
    (∀ k, 0 ≤ k → k ≤ length s → left s k ++ right s (length s - k) = s ∧ length (left s k) = k ∧
      (∀ c, middle s k c = left (right s (length s - k)) c) ∧ middleToEnd s k = right s (length s - k)) ∧
    (∀ k < 0, left s k = left s 0 ∧ right s k = right s 0) ∧
    (∀ k, length s < k → left s k = left s (length s) ∧ right s k = right s (length s)) ∧
    (find s n = -1 ↔ ∀ i, ¬ OccursAt s n i) ∧
    ((∃ i, OccursAt s n i) → OccursAt s n (find s n) ∧ ∀ i, OccursAt s n i → find s n ≤ i) ∧
    ((find s n = -1 ∧ ∀ b, ¬ BytesAt s n b) ∨
      ∃ t u, s = t ++ n ++ u ∧ (∀ b, BytesAt s n b → t.utf8ByteSize ≤ b) ∧ find s n = length t) := by
  refine ⟨fun t small => ⟨?_, answers_length t, answers_left t, answers_right t, answers_middle t,
    answers_middleToEnd t, answers_find t⟩, fun k low high => ⟨left_append_right small low high,
    length_left small low high, middle_eq_left_right small low high, middleToEnd_eq_right small low high⟩,
    fun k neg => ⟨left_of_neg neg, right_of_neg neg⟩,
    fun k above => ⟨left_of_length_lt small above, right_of_length_lt small above⟩, ?_, ?_, find_bytes s n⟩
  · rw [toInt_length small, String.length_toList]
  · constructor
    · intro none
      rcases find_cases small short with ⟨-, nowhere⟩ | ⟨occurs, -⟩
      · exact nowhere
      · rw [none] at occurs
        exact absurd occurs.start (by decide)
    · intro nowhere
      rcases find_cases small short with ⟨none, -⟩ | ⟨occurs, -⟩
      · exact none
      · exact absurd occurs (nowhere _)
  · rintro ⟨i, occurs⟩
    rcases find_cases small short with ⟨-, nowhere⟩ | first
    · exact absurd occurs (nowhere i)
    · exact first

/-! A string with a character of two bytes, in which there is more than one place to be found. -/
namespace Accented

def text : String := "h\u00e9llo"

theorem strings_consistent_accented : text.length < 2 ^ 31 ∧ "l".length < 2 ^ 31 ∧
    (left text 2, right text 3, middle text 1 3, find text "l") = ("h\u00e9", "llo", "\u00e9ll", 2) ∧
    left text 2 ++ right text (length text - 2) = text ∧ ∀ i, OccursAt text "l" i → find text "l" ≤ i := by
  have small : text.length < 2 ^ 31 := by decide +kernel
  have short : "l".length < 2 ^ 31 := by decide +kernel
  obtain ⟨-, parts, -, -, -, first, -⟩ := strings_consistent small short
  refine ⟨small, short, by decide +kernel, (parts 2 (by decide +kernel) (by decide +kernel)).1, ?_⟩
  exact (first ⟨2, by decide +kernel, by decide +kernel, by decide +kernel⟩).2

end Accented

end Tickwise.Library
