import Tickwise.Execution.Saved
set_option autoImplicit false

/-!
# Truncation

What a reader accepts rests on the bytes that it takes and on nothing behind them, and it looks at no byte
before it needs it. So an input that ends within these bytes is reported as truncated, wherever it ends, and
not as anything else.
-/
namespace Tickwise.Codec

variable {α β : Type}

/-- The reader accepts the input and takes its first `n` bytes. -/
def Consumes (read : Reader α) (input : List UInt8) (n : Nat) : Prop :=
  n ≤ input.length ∧ ∃ a, read.run input = .ok (a, input.drop n)

theorem consumes_iff {read : Reader α} {input : List UInt8} {n : Nat} : Consumes read input n ↔
    n ≤ input.length ∧ (read.run input).toOption.map Prod.snd = some (input.drop n) := by
  unfold Consumes
  cases read.run input with
  | error e => simp [Except.toOption]
  | ok result => simp [Except.toOption, Prod.ext_iff]

instance (read : Reader α) (input : List UInt8) (n : Nat) : Decidable (Consumes read input n) :=
  decidable_of_iff' _ consumes_iff

/-- Where the reader accepts, it takes the same bytes whatever follows them, and misses each byte that a
shorter input lacks. -/
def Exact (read : Reader α) : Prop :=
  ∀ ⦃input a rest⦄, read.run input = .ok (a, rest) → ∃ taken, taken ++ rest = input ∧
    (∀ other, read.run (taken ++ other) = .ok (a, other)) ∧
    ∀ k < taken.length, read.run (taken.take k) = .error .truncated

namespace Exact

variable {read other : Reader α}

theorem pure (a : α) : Exact (pure a : Reader α) := by
  intro input a' rest run
  cases run
  exact ⟨[], rfl, fun _ => rfl, fun k short => absurd short (Nat.not_lt_zero k)⟩

theorem throw (e : CodecError) : Exact (throw e : Reader α) := by
  intro input a rest run
  cases run

/-- A cut lies within the bytes of the first reader, or behind them and within those of the second. -/
theorem bind {f : α → Reader β} (first : Exact read) (second : ∀ a, Exact (f a)) : Exact (read >>= f) := by
  intro input b rest run
  rw [StateT.run_bind] at run
  cases accepted : read.run input with
  | error e =>
    rw [accepted] at run
    cases run
  | ok result =>
    obtain ⟨a, middle⟩ := result
    rw [accepted] at run
    obtain ⟨front, rfl, again, cut⟩ := first accepted
    obtain ⟨back, rfl, again', cut'⟩ := second a run
    refine ⟨front ++ back, List.append_assoc .., fun other => ?_, fun k short => ?_⟩
    · rw [List.append_assoc, StateT.run_bind, again]
      exact again' other
    · rw [StateT.run_bind]
      by_cases within : k < front.length
      · rw [List.take_append_of_le_length (Nat.le_of_lt within), cut k within]
        rfl
      · have behind : (front ++ back).take k = front ++ back.take (k - front.length) := by
          rw [List.take_append, List.take_of_length_le (Nat.not_lt.1 within)]
        rw [behind, again]
        refine cut' _ ?_
        rw [List.length_append] at short
        omega

theorem map (f : α → β) (h : Exact read) : Exact (f <$> read) := by
  rw [map_eq_pure_bind]
  exact h.bind fun a => .pure (f a)

theorem ite {c : Prop} [Decidable c] (yes : Exact read) (no : Exact other) :
    Exact (if c then read else other) := by
  split <;> assumption

theorem truncated (h : Exact read) {input cut : List UInt8} {n : Nat} (consumed : Consumes read input n)
    (begins : cut <+: input) (short : cut.length < n) : read.run cut = .error .truncated := by
  obtain ⟨within, a, accepted⟩ := consumed
  obtain ⟨taken, split, _, missing⟩ := h accepted
  have same : taken = input.take n :=
    List.append_cancel_right (split.trans (List.take_append_drop n input).symm)
  have length : taken.length = n := by rw [same, List.length_take, Nat.min_eq_left within]
  have ends : cut = taken.take cut.length := by
    rw [same, List.take_take, Nat.min_eq_left (Nat.le_of_lt short)]
    exact List.prefix_iff_eq_take.1 begins
  rw [ends]
  exact missing _ (length ▸ short)

theorem consumes (h : Exact read) {input rest : List UInt8} {a : α} (accepted : read.run input = .ok (a, rest)) :
    ∃ n, Consumes read input n := by
  obtain ⟨taken, rfl, _⟩ := h accepted
  refine ⟨taken.length, ?_, a, ?_⟩
  · simp
  · rw [accepted, List.drop_left]

end Exact

theorem exact_take (count : Nat) : Exact (take count) := by
  intro input bytes rest run
  change take count input = _ at run
  simp only [take] at run
  split at run
  · cases run
  · next enough =>
    cases run
    rw [List.length_take] at enough
    have length : (input.take count).length = count := by rw [List.length_take]; omega
    refine ⟨input.take count, List.take_append_drop .., fun other => ?_, fun k short => ?_⟩
    · change take count _ = _
      simp only [take]
      rw [List.take_left' length, List.drop_left' length, if_neg (by omega)]
    · change take count _ = _
      simp only [take]
      rw [if_pos]
      simp only [List.length_take]
      omega

theorem exact_number (count : Nat) : Exact (readNumber count) := (exact_take count).map _

theorem exact_word : Exact readWord := exact_number 2

theorem exact_ulong : Exact readULong := exact_number 4

theorem exact_long : Exact readLong := exact_ulong.bind fun _ => .pure _

theorem exact_bool : Exact readBool := by
  refine exact_word.bind fun tag => ?_
  split
  · exact .pure _
  · exact .pure _
  · exact .throw _

theorem exact_string : Exact readString := by
  refine exact_ulong.bind fun size => .ite (.throw _) ?_
  refine (exact_take size).bind fun bytes => ?_
  split
  · exact .pure _
  · exact .throw _

section

variable {read : Reader α}

theorem exact_option (each : Exact read) : Exact (readOption read) :=
  exact_bool.bind fun _ => .ite (each.map _) (.pure _)

theorem exact_length : Exact readLength := exact_ulong.bind fun _ => .ite (.throw _) (.pure _)

theorem exact_each (each : Exact read) (count : Nat) : Exact (readEach read count) := by
  induction count with
  | zero => exact .pure _
  | succ count ih => exact each.bind fun _ => ih.bind fun _ => .pure _

theorem exact_list (each : Exact read) : Exact (readList read) := exact_length.bind (exact_each each)

end

theorem exact_type (room : Nat) : Exact (readType room) := by
  have plain (tag : Nat) : Exact ((plainType? tag).elim (throw (.unknownTag tag)) pure : Reader Ty) := by
    cases plainType? tag with
    | none => exact .throw _
    | some ty => exact .pure _
  induction room with
  | zero =>
    refine exact_word.bind fun tag => ?_
    split
    · exact .throw _
    · exact exact_string.map _
    · exact plain _
  | succ room ih =>
    refine exact_word.bind fun tag => ?_
    split
    · exact ih.map _
    · exact exact_string.map _
    · exact plain _

theorem exact_value {child : Reader Tree} (each : Exact child) (tag : Nat) : Exact (readValue child tag) := by
  unfold readValue
  split
  · exact .pure _
  · exact .pure _
  · exact exact_bool.map _
  · exact exact_long.map _
  · exact exact_ulong.bind fun _ => .pure _
  · exact exact_string.map _
  · exact .pure _
  · exact (exact_list each).map _
  · exact exact_string.bind fun _ => (exact_list each).bind fun _ => .pure _

theorem exact_tree (room : Nat) : Exact (readTreeIn room) := by
  induction room with
  | zero => exact .throw _
  | succ room ih =>
    refine exact_word.bind fun tag => .ite (.throw _) ?_
    refine exact_ulong.bind fun id => (exact_option exact_string).bind fun name => ?_
    refine (exact_type maxDepth).bind fun ty => (exact_option exact_string).bind fun label => ?_
    exact (exact_value ih tag).bind fun value => .ite (.pure _) (.throw _)

theorem exact_status : Exact readStatus := by
  refine exact_word.bind fun tag => ?_
  split
  all_goals first | exact .pure _ | exact .throw _

theorem exact_runtimeError : Exact readRuntimeError :=
  exact_long.bind fun _ => exact_ulong.bind fun _ => exact_ulong.bind fun _ => .ite (.throw _) (.pure _)

theorem exact_frame (nodeCount : Nat) : Exact (readFrame nodeCount) := by
  have trees : Exact (readList readTree) := exact_list (exact_tree maxDepth)
  refine exact_ulong.bind fun node => .ite (.throw _) ?_
  refine exact_word.bind fun state => exact_long.bind fun index => exact_word.bind fun flags => ?_
  exact .ite (.throw _) (trees.bind fun operands => trees.bind fun locals => .pure _)

theorem exact_frames (p : Program) : Exact (readFrames p) :=
  exact_length.bind fun count => .ite (.throw _) (exact_each (exact_frame p.nodeCount) count)

theorem exact_execution (p : Program) : Exact p.readExecution := by
  refine exact_string.bind fun programId => .ite (.throw _) ?_
  refine exact_word.bind fun entry => exact_status.bind fun status => ?_
  refine (exact_option (exact_tree maxDepth)).bind fun result => ?_
  refine (exact_option exact_runtimeError).bind fun fault => ?_
  exact (exact_frames p).bind fun frames => .pure _

/-- Whatever a program loads, it consumed some number of bytes; and where loading, or reading a variable or a
type, consumes a number of bytes of its input, every shorter prefix of the input is truncated. -/
theorem truncation_reported (p : Program) (bytes : List UInt8) :
    (∀ h loaded, p.load bytes h = .ok loaded → ∃ n, Consumes p.readExecution bytes n) ∧
    ∀ n cut, cut <+: bytes → cut.length < n →
      (Consumes p.readExecution bytes n → ∀ h, p.load cut h = .error .truncated) ∧
      (Consumes readTree bytes n → readTree.run cut = .error .truncated) ∧
      (Consumes (readType maxDepth) bytes n → (readType maxDepth).run cut = .error .truncated) := by
  refine ⟨fun h loaded accepted => ?_, fun n cut begins short => ⟨fun consumed h => ?_, fun consumed => ?_,
    fun consumed => ?_⟩⟩
  · unfold Program.load at accepted
    cases read : p.readExecution.run bytes with
    | error e =>
      rw [read] at accepted
      cases accepted
    | ok result => exact (exact_execution p).consumes read
  · rw [Program.load, (exact_execution p).truncated consumed begins short]
    rfl
  · exact (exact_tree maxDepth).truncated consumed begins short
  · exact (exact_type maxDepth).truncated consumed begins short

/-- An execution that ended with the number 7, the number and its type, each before one more byte. -/
theorem truncation_reported_number :
    let p : Program := ⟨"test", [], [], 0, .empty⟩
    let number : List UInt8 := [3, 0, 0, 0, 0, 0, 0, 0, 2, 0, 0, 0, 7, 0, 0, 0]
    let saved : List UInt8 := [4, 0, 0, 0, 116, 101, 115, 116, 0, 0, 3, 0, 1, 0] ++ number ++ [0, 0, 0, 0, 0, 0]
    Consumes p.readExecution (saved ++ [1]) saved.length ∧ Consumes readTree (number ++ [1]) number.length ∧
      Consumes (readType maxDepth) [2, 0, 1] 2 ∧
      (∃ n, Consumes p.readExecution (saved ++ [1]) n) ∧
      (∀ h, p.load (saved.take 35) h = .error .truncated) ∧
      readTree.run (number.take 15) = .error .truncated ∧ (readType maxDepth).run [2] = .error .truncated := by
  intro p number saved
  have cut (bytes : List UInt8) (k : Nat) : bytes.take k <+: bytes ++ [1] :=
    (List.take_prefix k bytes).trans (List.prefix_append bytes [1])
  have loads : Consumes p.readExecution (saved ++ [1]) saved.length := by decide +kernel
  have reads : Consumes readTree (number ++ [1]) number.length := by decide +kernel
  have readsType : Consumes (readType maxDepth) [2, 0, 1] 2 := by decide +kernel
  have accepted : ∃ loaded, p.load (saved ++ [1]) .empty = .ok loaded := by
    obtain ⟨_, x, read⟩ := loads
    exact ⟨_, by rw [Program.load, read]; rfl⟩
  obtain ⟨loaded, accepted⟩ := accepted
  exact ⟨loads, reads, readsType, (truncation_reported p _).1 .empty loaded accepted,
    ((truncation_reported p _).2 _ _ (cut saved 35) (by decide)).1 loads,
    ((truncation_reported p _).2 _ _ (cut number 15) (by decide)).2.1 reads,
    ((truncation_reported p [2, 0, 1]).2 2 [2] ⟨[0, 1], rfl⟩ (by decide)).2.2 readsType⟩

end Tickwise.Codec
