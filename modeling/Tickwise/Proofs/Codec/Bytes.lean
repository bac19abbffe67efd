import Mathlib.Algebra.Group.Nat.Defs
import Mathlib.Data.List.Forall2
import Tickwise.Codec.Bytes
set_option autoImplicit false

/-!
# Reading back what was written

A reader undoes a writer if it takes just the bytes that were written, whatever follows them, and yields
what they stand for. Some readers check more than their writers do: those take the bytes under a
condition, and fail without it.
-/
namespace Tickwise

theorem ok_of_any {ε α : Type} {r : Except ε α} {q : α → Bool} (h : r.toOption.any q = true) :
    ∃ a, r = .ok a ∧ q a = true := by
  cases r with
  | error => cases h
  | ok a => exact ⟨a, rfl, h⟩

namespace Written

@[simp] theorem error_andThen (w : Written) (more : Written) :
    (w >> more).error = none ↔ w.error = none ∧ more.error = none := by
  change (w.andThen fun _ => more).error = none ↔ _
  unfold andThen
  split <;> simp_all

theorem bytes_andThen {w : Written} (h : w.error = none) (more : Written) :
    (w >> more).bytes = w.bytes ++ more.bytes := by
  change (w.andThen fun _ => more).bytes = _
  unfold andThen
  rw [h]

theorem andThen_nothing (w : Written) : w >> nothing = w := by
  change (w.andThen fun _ => nothing) = w
  unfold andThen
  split
  · rfl
  · next noError =>
    obtain ⟨bytes, error⟩ := w
    cases noError
    simp [nothing, ofBytes]

end Written

namespace Codec

/-- Where something is written without error, the reader yields what `A` says if `P` holds, and leaves what
follows; if `P` does not hold it fails. -/
structure ReadsBack {α : Type} (w : Written) (read : Reader α) (P : Prop) (A : α → Prop) : Prop where
  accepts : w.error = none → P → ∀ rest, ∃ a, A a ∧ read.run (w.bytes ++ rest) = .ok (a, rest)
  refuses : w.error = none → ¬ P → ∀ rest, ∃ e, read.run (w.bytes ++ rest) = .error e

namespace ReadsBack

variable {α β : Type} {w more : Written} {read : Reader α} {P Q : Prop} {A A' : α → Prop} {B : β → Prop}

theorem imp (h : ReadsBack w read P A) (condition : P ↔ Q) (result : ∀ a, A a → A' a) :
    ReadsBack w read Q A' where
  accepts written holds rest := by
    obtain ⟨a, ha, run⟩ := h.accepts written (condition.2 holds) rest
    exact ⟨a, result a ha, run⟩
  refuses written fails rest := h.refuses written (mt condition.1 fails) rest

theorem iff (h : ReadsBack w read P A) (condition : P ↔ Q) : ReadsBack w read Q A :=
  h.imp condition fun _ ha => ha

/-- What cannot be written need not be read. -/
theorem unwritten (h : w.error ≠ none) (read : Reader α) (P : Prop) (A : α → Prop) :
    ReadsBack w read P A where
  accepts written := absurd written h
  refuses written := absurd written h

theorem malformed (what : Malformation) (read : Reader α) (P : Prop) (A : α → Prop) :
    ReadsBack (.malformed what) read P A :=
  unwritten (by simp [Written.malformed]) ..

theorem pure {a : α} (h : A a) : ReadsBack .nothing (pure a) True A where
  accepts _ _ _ := ⟨a, h, rfl⟩
  refuses _ fails := absurd trivial fails

theorem throw (e : CodecError) (A : α → Prop) : ReadsBack .nothing (throw e) False A where
  accepts _ holds := holds.elim
  refuses _ _ _ := ⟨e, rfl⟩

theorem bind {f : α → Reader β} (first : ReadsBack w read P A)
    (second : ∀ a, A a → ReadsBack more (f a) Q B) : ReadsBack (w >> more) (read >>= f) (P ∧ Q) B where
  accepts written holds rest := by
    obtain ⟨hw, hmore⟩ := (Written.error_andThen w more).1 written
    obtain ⟨a, ha, run⟩ := first.accepts hw holds.1 (more.bytes ++ rest)
    obtain ⟨b, hb, run'⟩ := (second a ha).accepts hmore holds.2 rest
    refine ⟨b, hb, ?_⟩
    rw [StateT.run_bind, Written.bytes_andThen hw, List.append_assoc, run]
    exact run'
  refuses written fails rest := by
    obtain ⟨hw, hmore⟩ := (Written.error_andThen w more).1 written
    rw [StateT.run_bind, Written.bytes_andThen hw, List.append_assoc]
    by_cases holds : P
    · obtain ⟨a, ha, run⟩ := first.accepts hw holds (more.bytes ++ rest)
      obtain ⟨e, run'⟩ := (second a ha).refuses hmore (fun hq => fails ⟨holds, hq⟩) rest
      rw [run]
      exact ⟨e, run'⟩
    · obtain ⟨e, run⟩ := first.refuses hw holds (more.bytes ++ rest)
      rw [run]
      exact ⟨e, rfl⟩

theorem check {f : α → Reader β} (first : ReadsBack w read P A)
    (second : ∀ a, A a → ReadsBack .nothing (f a) Q B) : ReadsBack w (read >>= f) (P ∧ Q) B := by
  have both := first.bind second
  rw [Written.andThen_nothing] at both
  exact both

theorem map {f : α → β} (h : ReadsBack w read P A) (result : ∀ a, A a → B (f a)) :
    ReadsBack w (f <$> read) P B := by
  have both := h.check fun a ha => .pure (result a ha)
  rw [map_eq_pure_bind]
  exact both.iff (and_iff_left trivial)

theorem then_ {a : α} {f : α → Reader β} (first : ReadsBack w read True (· = a))
    (second : ReadsBack more (f a) Q B) : ReadsBack (w >> more) (read >>= f) Q B := by
  have both := first.bind (f := f) (B := B) (Q := Q) fun a' same => by
    cases same
    exact second
  exact both.iff (Iff.of_eq (true_and Q))

theorem last {a : α} {f : α → Reader β} (first : ReadsBack w read True (· = a))
    (second : ReadsBack .nothing (f a) Q B) : ReadsBack w (read >>= f) Q B := by
  have both := first.then_ second
  rw [Written.andThen_nothing] at both
  exact both

theorem mapTo {a : α} {f : α → β} (first : ReadsBack w read True (· = a)) (result : B (f a)) :
    ReadsBack w (f <$> read) True B := by
  rw [map_eq_pure_bind]
  exact first.last (.pure result)

/-- The reader checks something before it goes on. -/
theorem guard {c : Prop} [Decidable c] (e : CodecError) (h : ReadsBack w read P A) :
    ReadsBack w (if c then MonadExcept.throw e else read) (¬ c ∧ P) A := by
  split
  · next hc =>
    refine ⟨fun _ holds => absurd hc holds.1, fun _ _ rest => ⟨e, rfl⟩⟩
  · next hc => exact h.iff (by simp [hc])

theorem assert {c : Prop} [Decidable c] {a : α} (e : CodecError) (h : c → A a) :
    ReadsBack .nothing (if c then Pure.pure a else MonadExcept.throw e) c A := by
  split
  · next hc => exact (pure (h hc)).iff (by simp [hc])
  · next hc => exact (throw e A).iff (by simp [hc])

end ReadsBack

theorem length_littleEndian (count n : Nat) : (littleEndian count n).length = count := by
  induction count generalizing n with
  | zero => rfl
  | succ count ih => simp [littleEndian, ih]

theorem ofLittleEndian_littleEndian (count n : Nat) (h : n < 256 ^ count) :
    ofLittleEndian (littleEndian count n) = n := by
  induction count generalizing n with
  | zero =>
    have none : n = 0 := by simpa using h
    rw [none]
    rfl
  | succ count ih =>
    have digits : n / 256 < 256 ^ count := Nat.div_lt_of_lt_mul (by rwa [← Nat.pow_succ'])
    simp only [littleEndian, ofLittleEndian, ih _ digits, UInt8.toNat_ofNat']
    omega

theorem run_take (bytes rest : List UInt8) :
    (take bytes.length).run (bytes ++ rest) = .ok (bytes, rest) := by
  change take bytes.length (bytes ++ rest) = _
  simp [take]

theorem readsBack_ofBytes (bytes : List UInt8) :
    ReadsBack (.ofBytes bytes) (take bytes.length) True (· = bytes) where
  accepts _ _ rest := ⟨bytes, rfl, run_take bytes rest⟩
  refuses _ fails := absurd trivial fails

theorem readsBack_number (count n : Nat) :
    ReadsBack (number count n) (readNumber count) True (· = n) := by
  unfold number
  split
  · next small =>
    have fits : n < 256 ^ count := by
      rwa [Nat.shiftLeft_eq, Nat.one_mul, Nat.pow_mul] at small
    have digits := readsBack_ofBytes (littleEndian count n)
    rw [length_littleEndian] at digits
    refine digits.map fun bytes same => ?_
    rw [same, ofLittleEndian_littleEndian count n fits]
  · exact .malformed ..

theorem readsBack_word (n : Nat) : ReadsBack (word n) readWord True (· = n) := readsBack_number 2 n

theorem readsBack_ulong (n : Nat) : ReadsBack (ulong n) readULong True (· = n) := readsBack_number 4 n

theorem readsBack_long (i : Int32) : ReadsBack (long i) readLong True (· = i) := by
  refine (readsBack_ulong i.toUInt32.toNat).last (.pure ?_)
  rw [UInt32.ofNat_toNat, Int32.toInt32_toUInt32]

theorem readsBack_integer (i : Int) :
    ReadsBack (integer i) readLong True (fun j => j.toInt = i) := by
  unfold integer
  split
  · next same => exact (readsBack_long _).imp Iff.rfl fun j hj => by rw [hj, same]
  · exact .malformed ..

theorem readsBack_bool (b : Bool) : ReadsBack (bool b) readBool True (· = b) := by
  refine (readsBack_word (if b then 1 else 0)).last ?_
  cases b <;> exact .pure rfl

theorem fromUTF8?_toUTF8 (s : String) : String.fromUTF8? s.toUTF8 = some s := by
  rw [String.toUTF8_eq_toByteArray, String.fromUTF8?, dif_pos s.isValidUTF8]
  rfl

theorem readsBack_string (s : String) : ReadsBack (string s) readString True (· = s) := by
  unfold string readString
  by_cases long : s.utf8ByteSize > maxStringBytes
  · rw [if_pos long]
    exact .malformed ..
  · rw [if_neg long]
    refine (readsBack_ulong s.utf8ByteSize).then_ ?_
    rw [if_neg long]
    have size : s.toUTF8.data.toList.length = s.utf8ByteSize := by
      rw [String.toUTF8_eq_toByteArray]
      exact String.size_toByteArray
    have bytes := readsBack_ofBytes s.toUTF8.data.toList
    rw [size] at bytes
    refine bytes.last ?_
    have decoded : String.fromUTF8? ⟨s.toUTF8.data.toList.toArray⟩ = some s := fromUTF8?_toUTF8 s
    rw [decoded]
    exact .pure rfl

section

variable {α β : Type} {write : α → Written} {read : Reader β} {P : α → Prop} {A : α → β → Prop}

theorem readsBack_option (o : Option α) (each : ∀ a, ReadsBack (write a) read (P a) (A a)) :
    ReadsBack (option write o) (readOption read) (∀ a ∈ o, P a) (Option.Rel A o) := by
  cases o with
  | none =>
    refine ReadsBack.iff (P := True) ((readsBack_bool false).last (.pure ?_)) (by simp)
    exact .none
  | some a =>
    have inner : ReadsBack (write a) (some <$> read) (P a) (Option.Rel A (some a)) :=
      (each a).map fun b hb => .some hb
    exact ((readsBack_bool true).then_ inner).iff (by simp)

theorem readsBack_optionString (o : Option String) :
    ReadsBack (option string o) (readOption readString) True (· = o) := by
  refine (readsBack_option (P := fun _ => True) o fun s => readsBack_string s).imp (by simp) ?_
  intro o' h
  cases h with
  | none => rfl
  | some same => rw [same]

theorem readsBack_each (items : List α) (each : ∀ a, ReadsBack (write a) read (P a) (A a)) :
    ReadsBack (.each write items) (readEach read items.length) (∀ a ∈ items, P a)
      (List.Forall₂ A items) := by
  induction items with
  | nil => exact (ReadsBack.pure .nil).iff (by simp)
  | cons a items ih =>
    have entries := (each a).bind (f := fun b => do return b :: (← readEach read items.length))
      (B := List.Forall₂ A (a :: items)) fun b hb => ih.check (Q := True) fun bs hbs => .pure (.cons hb hbs)
    exact entries.iff (by simp)

theorem readsBack_length (n : Nat) :
    ReadsBack (length n) readLength True fun m => m = n ∧ n ≤ maxElements := by
  unfold length readLength
  by_cases long : n > maxElements
  · rw [if_pos long]
    exact .malformed ..
  · rw [if_neg long]
    refine (readsBack_ulong n).last ?_
    rw [if_neg long]
    exact .pure ⟨rfl, by omega⟩

theorem readsBack_list (items : List α) (each : ∀ a, ReadsBack (write a) read (P a) (A a)) :
    ReadsBack (list write items) (readList read) (∀ a ∈ items, P a) (List.Forall₂ A items) := by
  have entries := (readsBack_length items.length).bind (f := fun n => readEach read n) fun n hn => by
    rw [hn.1]
    exact readsBack_each items each
  exact entries.iff (Iff.of_eq (true_and _))

end

end Codec
end Tickwise
