import Tickwise.Text.Search
set_option autoImplicit false

/-!
# Searches find the first occurrence

Sums of windows follow from each other, so the search by sums answers the first position from which
the text starts with what is searched for.
-/
namespace Tickwise.Text

@[simp] theorem weighed_nil (n : UInt64) : weighed n [] = n := rfl

@[simp] theorem weighed_cons (n : UInt64) (c : Char) (cs : List Char) :
    weighed n (c :: cs) = weighed (n * sumBase) cs := rfl

theorem weighed_append_singleton (n : UInt64) (cs : List Char) (d : Char) :
    weighed n (cs ++ [d]) = weighed n cs * sumBase := by
  simp [weighed]

theorem weighed_eq_mul (n : UInt64) (cs : List Char) : weighed n cs = n * weighed 1 cs := by
  induction cs generalizing n with
  | nil => simp
  | cons c cs ih =>
    rw [weighed_cons, weighed_cons, ih, ih (1 * sumBase)]
    grind

theorem weighed_of_length_eq {cs ds : List Char} (h : cs.length = ds.length) (n : UInt64) :
    weighed n cs = weighed n ds := by
  induction cs generalizing ds n with
  | nil => cases ds <;> simp_all
  | cons c cs ih =>
    cases ds with
    | nil => simp at h
    | cons d ds => exact ih (by simpa using h) _

theorem foldl_sum (cs : List Char) (n : UInt64) :
    cs.foldl (fun n c => n * sumBase + sumDigit c) n = n * weighed 1 cs + windowSum cs := by
  unfold windowSum
  induction cs generalizing n with
  | nil => simp
  | cons c cs ih =>
    rw [List.foldl_cons, List.foldl_cons, ih, ih (0 * sumBase + sumDigit c), weighed_cons,
      weighed_eq_mul (1 * sumBase)]
    grind

theorem windowSum_cons (c : Char) (cs : List Char) :
    windowSum (c :: cs) = sumDigit c * weighed 1 cs + windowSum cs := by
  simpa [windowSum] using foldl_sum cs (sumDigit c)

theorem windowSum_append_singleton (cs : List Char) (d : Char) :
    windowSum (cs ++ [d]) = windowSum cs * sumBase + sumDigit d := by
  simp [windowSum]

theorem lt_length_of_drop_eq_cons {d : Char} {cs ahead : List Char} {m : Nat}
    (h : cs.drop m = d :: ahead) : m < cs.length := by
  have := congrArg List.length h
  simp at this
  omega

theorem windowSum_take_of_drop {c d : Char} {cs ahead : List Char} {m : Nat}
    (h : cs.drop m = d :: ahead) :
    windowSum (cs.take (m + 1)) =
      windowSum ((c :: cs).take (m + 1)) * sumBase + sumDigit d -
        sumDigit c * (weighed 1 (cs.take m) * sumBase) := by
  have hlt : m < cs.length := lt_length_of_drop_eq_cons h
  rw [List.drop_eq_getElem_cons hlt, List.cons.injEq] at h
  rw [List.take_succ_eq_append_getElem hlt, h.1, windowSum_append_singleton, List.take_succ_cons,
    windowSum_cons]
  grind

theorem isPrefixOf_eq_false_of_length_lt {needle text : List Char} (h : text.length < needle.length) :
    needle.isPrefixOf text = false := by
  rw [Bool.eq_false_iff]
  intro hp
  have := (List.isPrefixOf_iff_prefix.1 hp).length_le
  omega

/-- The first position of the text, or just behind it, from which it starts with `needle`. -/
def firstIndex? (needle text : List Char) : Option Nat :=
  (List.range (text.length + 1)).find? fun i => needle.isPrefixOf (text.drop i)

theorem firstIndex?_cons (needle : List Char) (c : Char) (cs : List Char) :
    firstIndex? needle (c :: cs) =
      if needle.isPrefixOf (c :: cs) then some 0 else (firstIndex? needle cs).map (· + 1) := by
  unfold firstIndex?
  rw [List.length_cons, List.range_succ_eq_map, List.find?_cons, List.find?_map]
  split <;> rename_i h <;> simp only [List.drop_zero] at h
  · simp [h]
  · simp only [h, Function.comp_def, List.drop_succ_cons]
    rfl

theorem firstIndex?_eq_none_of_length_lt {needle text : List Char}
    (h : text.length < needle.length) : firstIndex? needle text = none := by
  induction text with
  | nil => simp [firstIndex?, isPrefixOf_eq_false_of_length_lt h]
  | cons c cs ih =>
    rw [firstIndex?_cons, isPrefixOf_eq_false_of_length_lt h, ih (by simp at h; omega)]
    rfl

theorem indexFrom?_eq (needle text : List Char) (i : Nat) :
    indexFrom? needle (windowSum needle) (weighed 1 needle) text (text.drop needle.length)
      (windowSum (text.take needle.length)) i = (firstIndex? needle text).map (· + i) := by
  induction text generalizing i with
  | nil =>
    unfold indexFrom? firstIndex?
    cases needle <;> simp
  | cons c cs ih =>
    have guard : (windowSum ((c :: cs).take needle.length) = windowSum needle ∧
        needle.isPrefixOf (c :: cs) = true) ↔ needle.isPrefixOf (c :: cs) = true := by
      refine ⟨And.right, fun hp => ⟨?_, hp⟩⟩
      rw [← List.prefix_iff_eq_take.1 (List.isPrefixOf_iff_prefix.1 hp)]
    unfold indexFrom?
    rw [firstIndex?_cons]
    simp only [guard]
    by_cases hp : needle.isPrefixOf (c :: cs) = true
    · simp [hp]
    · obtain ⟨m, hm⟩ : ∃ m, needle.length = m + 1 := by
        cases needle with
        | nil => simp at hp
        | cons e needle => exact ⟨needle.length, rfl⟩
      simp only [hp, hm, List.drop_succ_cons]
      cases hd : cs.drop m with
      | nil =>
        have := List.drop_eq_nil_iff.1 hd
        simp [firstIndex?_eq_none_of_length_lt (show cs.length < needle.length by omega)]
      | cons d ahead =>
        have hlt : m < cs.length := lt_length_of_drop_eq_cons hd
        have hahead : cs.drop (m + 1) = ahead := by
          rw [← List.tail_drop, hd, List.tail_cons]
        have hweight : weighed 1 needle = weighed 1 (cs.take m) * sumBase := by
          rw [← weighed_append_singleton 1 (cs.take m) d]
          exact weighed_of_length_eq (by simp [hm]; omega) 1
        have step := ih (i + 1)
        rw [hm, hahead, windowSum_take_of_drop hd, ← hweight] at step
        simp only [Bool.false_eq_true, if_false, Option.map_map, Function.comp_def]
        rw [step]
        congr 1
        funext k
        omega

theorem indexOf?_eq_firstIndex? (needle text : List Char) :
    indexOf? needle text = firstIndex? needle text := by
  have := indexFrom?_eq needle text 0
  simpa [indexOf?] using this

end Tickwise.Text
